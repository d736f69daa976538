import Mathlib.Data.List.TakeWhile
import Mathlib.Tactic.SplitIfs
import Minifier.Proofs.Config.Options
import Minifier.Proofs.Json.Grammar
import Minifier.Worker.Lines
import Minifier.Worker.Message

/-!
Serving lines. Every line that is not blank is answered by one line, in order, until a line is met that is no
text. What is written for a list of requests calls forth the response to each.
-/

/-!
## Lines of bytes

A line feed ends a line wherever it stands, since no byte of a longer character looks like one, so a text without line
feeds is a line and is read back from it.
-/

namespace Minifier.Worker

/-! ### Bytes of a text -/

/-- The bytes of a text. -/
def bytesOf (text : String) : List UInt8 := text.toUTF8.data.toList

theorem lineText?_bytesOf (text : String) : lineText? (bytesOf text) = some text := by
  have hbytes : ByteArray.mk (bytesOf text).toArray = text.toByteArray := rfl
  rw [lineText?, hbytes, String.fromUTF8?, dif_pos text.isValidUTF8]
  rfl

theorem bytesOf_eq (text : String) : bytesOf text = text.toList.flatMap String.utf8EncodeChar := by
  have hbytes : text.toUTF8 = (text.toList.flatMap String.utf8EncodeChar).toByteArray :=
    (String.utf8Encode_toList ..).symm
  rw [bytesOf, hbytes]
  simp

/-- A byte of a character that is below 128 is the whole character. -/
theorem toNat_of_mem_utf8EncodeChar {c : Char} {b : UInt8} (h : b ∈ String.utf8EncodeChar c)
    (hb : b.toNat < 128) : c.toNat = b.toNat := by
  have hval : c.toNat = c.val.toNat := rfl
  -- Every byte of a longer character is at least 128.
  have hlarge : ∀ n, 128 ≤ n → n < 256 → b ≠ UInt8.ofNat n := by
    rintro n hle hlt rfl
    rw [UInt8.toNat_ofNat', Nat.mod_eq_of_lt hlt] at hb
    omega
  simp only [String.utf8EncodeChar] at h
  split_ifs at h
  · obtain rfl := List.mem_singleton.mp h
    rw [UInt8.toNat_ofNat', hval]
    omega
  all_goals simp only [List.mem_cons, List.not_mem_nil, or_false] at h
  · rcases h with h | h <;> exact absurd h (hlarge _ (by omega) (by omega))
  · rcases h with h | h | h <;> exact absurd h (hlarge _ (by omega) (by omega))
  · rcases h with h | h | h | h <;> exact absurd h (hlarge _ (by omega) (by omega))

theorem mem_bytesOf {text : String} {b : UInt8} (h : b ∈ bytesOf text) (hb : b.toNat < 128) :
    ∃ c ∈ text.toList, c.toNat = b.toNat := by
  rw [bytesOf_eq, List.mem_flatMap] at h
  obtain ⟨c, hc, hmem⟩ := h
  exact ⟨c, hc, toNat_of_mem_utf8EncodeChar hmem hb⟩

/-! ### Lines -/

/-- What is read of a line goes in front of its end, and lines that are done stay in front of those to come. -/
theorem byteLines_go (bytes line : List UInt8) (done : List (List UInt8)) :
    byteLines.go bytes line done = done.reverse ++ byteLines.go bytes line [] := by
  induction bytes generalizing line done with
  | nil =>
    simp only [byteLines.go]
    split <;> simp
  | cons b bytes ih =>
    simp only [byteLines.go]
    split
    · rw [ih, ih [] [_]]
      simp
    · exact ih _ _

/-- A line feed ends the line that stands before it. -/
theorem byteLines_append {line : List UInt8} (h : 10 ∉ line) (rest : List UInt8) :
    byteLines (line ++ 10 :: rest) = dropReturnByte line :: byteLines rest := by
  have hgo : ∀ read : List UInt8,
      byteLines.go (line ++ 10 :: rest) read [] = dropReturnByte (read.reverse ++ line) :: byteLines rest := by
    induction line with
    | nil =>
      intro read
      rw [List.nil_append, byteLines.go, if_pos rfl, byteLines_go, List.append_nil]
      rfl
    | cons b line ih =>
      intro read
      rw [List.mem_cons, not_or] at h
      rw [List.cons_append, byteLines.go, if_neg (Ne.symm h.1), ih h.2]
      simp
  exact hgo []

theorem dropReturnByte_eq_self {line : List UInt8} (h : 13 ∉ line) : dropReturnByte line = line := by
  rw [dropReturnByte, if_neg]
  intro hlast
  exact h (List.mem_of_getLast? (eq_of_beq hlast))

/-- Texts without line breaks, each with a line feed behind it, are the lines of their bytes. -/
theorem byteLines_flatMap {texts : List String}
    (h : ∀ text ∈ texts, '\n' ∉ text.toList ∧ '\r' ∉ text.toList) :
    byteLines (texts.flatMap fun text => bytesOf text ++ [10]) = texts.map bytesOf := by
  induction texts with
  | nil => rfl
  | cons text texts ih =>
    rw [List.forall_mem_cons] at h
    obtain ⟨⟨hfeed, hreturn⟩, htexts⟩ := h
    have hline : (10 : UInt8) ∉ bytesOf text := by
      intro hmem
      obtain ⟨c, hc, hnat⟩ := mem_bytesOf hmem (by decide)
      obtain rfl : c = '\n' := Char.toNat_inj.mp hnat
      exact hfeed hc
    have hend : (13 : UInt8) ∉ bytesOf text := by
      intro hmem
      obtain ⟨c, hc, hnat⟩ := mem_bytesOf hmem (by decide)
      obtain rfl : c = '\r' := Char.toNat_inj.mp hnat
      exact hreturn hc
    rw [List.flatMap_cons, List.append_assoc, List.singleton_append, byteLines_append hline,
      dropReturnByte_eq_self hend, ih htexts, List.map_cons]

end Minifier.Worker

/-!
## Requests on their way to a worker

What is written for a request, whatever its code, is read back as that
request, and stands on one line.
-/

namespace Minifier

open Json

namespace Worker.Request

/-- The fields of a request as they are written. -/
def written (request : Request) : List (Written Request) :=
  [.of "id" true .string (fun v r => { r with id := v }) (.string request.id) request.id,
   .of "code" true .string (fun v r => { r with code := v }) (.string request.code) request.code,
   .of "language" true Language.decoder (fun v r => { r with language := v }) (.string request.language.name)
     request.language,
   .of "options" false Options.decoder (fun v r => { r with options := v }) request.options.toJson
     request.options]

theorem reads_toJson (request : Request) : decoder.Reads request.toJson request := by
  have hread : ∀ entry ∈ request.written, entry.ReadIn record := by
    simp only [written, List.forall_mem_cons]
    refine ⟨?_, ?_, ?_, ?_, nofun⟩
    · exact Written.readIn_of rfl ((Decoder.decodes_string _).reads trivial)
    · exact Written.readIn_of rfl ((Decoder.decodes_string _).reads trivial)
    · exact Written.readIn_of rfl (request.language.decodes_name.reads trivial)
    · exact Written.readIn_of rfl request.options.reads_toJson
  have hnames : (request.written.map fun entry => entry.field.name).Nodup := by
    simp [written, Written.of]
  have hrequired : ∀ field ∈ record.fields, field.required = true →
      field.name ∈ request.written.map fun entry => entry.field.name := by
    simp [record, written, Written.of, Field.optional, required]
  exact record.reads_written hread hnames hrequired

/-- A request is read back from what is written for it. -/
theorem parse_compact (request : Request) : decoder.parse request.toJson.compact = .ok request := by
  have hread := request.reads_toJson []
  rw [Decoder.parse, readAll, compact, String.toList_ofList, hread]
  rfl

end Worker.Request

end Minifier

/-! ## Answers -/

namespace Minifier.Worker

/-- The id under which a line is answered: that of its request, or else the string that its object has under
that name. -/
def idFor (text : String) : String :=
  match Request.decoder.parse text with
  | .ok request => request.id
  | .error _ =>
    match Json.parse text with
    | .ok (.object members) =>
      match members.lookup "id" with
      | some (.string id) => id
      | _ => ""
    | _ => ""

/-- A line answers another: it is one object without control characters, under the right id and with either
a result or an error. -/
structure Answers (text line : String) : Prop where
  answer : line = responseLine (answerLine text)
  isText : Json.IsText line.toList
  oneLine : ∀ c ∈ line.toList, 32 ≤ c.toNat
  object : ∃ members, line = (Json.object members).compact ∧
    members.lookup "id" = some (.string (idFor text)) ∧
      (members.map Prod.fst = ["id", "success", "result"] ∧ members.lookup "success" = some (.bool true) ∨
        members.map Prod.fst = ["id", "success", "error"] ∧ members.lookup "success" = some (.bool false))

/-! ### One line -/

theorem recoveredId_eq (text : String) :
    recoveredId text =
      match Json.parse text with
      | .ok (.object members) =>
        match members.lookup "id" with
        | some (.string id) => id
        | _ => ""
      | _ => "" := by
  rw [recoveredId]
  cases Json.parse text with
  | error _ => rfl
  | ok value =>
    cases value with
    | object members =>
      change ((members.lookup "id").bind Json.text?).getD "" =
        match members.lookup "id" with
        | some (.string id) => id
        | _ => ""
      cases members.lookup "id" with
      | none => rfl
      | some id => cases id <;> rfl
    | _ => rfl

/-- A response to a line is a success with a result or a failure with an error, under the id of the line. -/
theorem exists_answerLine (text : String) :
    (∃ result, answerLine text = .ok (idFor text) result) ∨ ∃ error, answerLine text = .failed (idFor text) error := by
  rw [answerLine, idFor]
  cases Request.decoder.parse text with
  | error error => exact .inr ⟨_, congrArg (Response.failed · _) (recoveredId_eq text)⟩
  | ok request =>
    simp only [handle]
    split
    · exact .inl ⟨_, rfl⟩
    · exact .inr ⟨_, rfl⟩

theorem answers_answerLine (text : String) : Answers text (responseLine (answerLine text)) where
  answer := rfl
  isText := Json.isText_compact _
  oneLine := (Json.isText_compact _).le_of_mem
  object := by
    rcases exists_answerLine text with ⟨result, hanswer⟩ | ⟨error, hanswer⟩
    · rw [hanswer]
      exact ⟨_, rfl, rfl, .inl ⟨rfl, rfl⟩⟩
    · rw [hanswer]
      exact ⟨_, rfl, rfl, .inr ⟨rfl, rfl⟩⟩

/-! ### All lines -/

/-- The texts of the lines that are not blank. -/
def textsOf (lines : List (List UInt8)) : List String :=
  (lines.filterMap lineText?).filter fun text => !isBlankLine text

theorem answersUpTo_append {lines : List (List UInt8)} (h : ∀ line ∈ lines, (lineText? line).isSome)
    (rest : List (List UInt8)) :
    answersUpTo respondTo (lines ++ rest) =
      ((textsOf lines).map answerLine ++ (answersUpTo respondTo rest).1, (answersUpTo respondTo rest).2) := by
  induction lines with
  | nil => rfl
  | cons line lines ih =>
    rw [List.forall_mem_cons] at h
    obtain ⟨text, htext⟩ := Option.isSome_iff_exists.mp h.1
    have hrest := ih h.2
    have htexts : textsOf (line :: lines) = if isBlankLine text then textsOf lines else text :: textsOf lines := by
      rw [textsOf, List.filterMap_cons_some htext, List.filter_cons]
      cases isBlankLine text <;> rfl
    rw [List.cons_append, answersUpTo, respondTo, htext, htexts]
    by_cases hblank : isBlankLine text = true
    · simp only [hblank, if_true, hrest]
    · simp only [hblank, Bool.false_eq_true, if_false, hrest, List.map_cons, List.cons_append]

/-- What is served for lines that are texts, up to the first that is none. -/
theorem serve_eq {bytes : List UInt8} {lines : List (List UInt8)}
    (h : ∀ line ∈ lines, (lineText? line).isSome) {rest : List (List UInt8)}
    (hlines : byteLines bytes = lines ++ rest) :
    serve bytes = ⟨(textsOf lines).map answerLine ++ (answersUpTo respondTo rest).1,
      (answersUpTo respondTo rest).2⟩ := by
  rw [serve, hlines, answersUpTo_append h]

theorem forall₂_answers (texts : List String) :
    List.Forall₂ Answers texts ((texts.map answerLine).map responseLine) := by
  rw [List.map_map, List.forall₂_map_right_iff, List.forall₂_same]
  exact fun text _ => answers_answerLine text

/-- What is written for a request begins with a brace, so it is not blank. -/
theorem not_isBlankLine_compact (request : Request) : isBlankLine request.toJson.compact = false := by
  have hstart : ∃ rest, request.toJson.compact.toList = '\x7b' :: rest :=
    ⟨_, by rw [Json.compact, String.toList_ofList, Request.toJson, Json.compactOnto]⟩
  obtain ⟨rest, hstart⟩ := hstart
  rw [isBlankLine, hstart, Bool.eq_false_iff, Ne, List.isEmpty_iff, Text.trim, Text.dropTail,
    List.reverse_eq_nil_iff, List.dropWhile_eq_nil_iff]
  intro hblank
  exact absurd (hblank '\x7b' (List.mem_reverse.mpr List.mem_cons_self)) (by decide)

/-- Requests that are written on lines are read back and answered. -/
theorem serve_requests (requests : List Request) :
    serve (requests.flatMap fun request => bytesOf request.toJson.compact ++ [10]) =
      ⟨requests.map handle, none⟩ := by
  let texts := requests.map fun request => request.toJson.compact
  have hcontrol : ∀ text ∈ texts, '\n' ∉ text.toList ∧ '\r' ∉ text.toList := by
    intro text htext
    obtain ⟨request, -, rfl⟩ := List.mem_map.mp htext
    have hle := (Json.isText_compact request.toJson).le_of_mem
    exact ⟨fun hmem => absurd (hle _ hmem) (by decide), fun hmem => absurd (hle _ hmem) (by decide)⟩
  have hlines : byteLines (requests.flatMap fun request => bytesOf request.toJson.compact ++ [10]) =
      texts.map bytesOf ++ [] := by
    rw [List.append_nil, ← byteLines_flatMap hcontrol, List.flatMap_map]
  have hreadable : ∀ line ∈ texts.map bytesOf, (lineText? line).isSome := by
    intro line hline
    obtain ⟨text, -, rfl⟩ := List.mem_map.mp hline
    rw [lineText?_bytesOf]
    rfl
  have htexts : textsOf (texts.map bytesOf) = texts := by
    rw [textsOf, List.filterMap_map]
    have hread : (lineText? ∘ bytesOf) = some := funext lineText?_bytesOf
    rw [hread, List.filterMap_some, List.filter_eq_self]
    intro text htext
    obtain ⟨request, -, rfl⟩ := List.mem_map.mp htext
    rw [not_isBlankLine_compact]
    rfl
  have hanswers : texts.map answerLine = requests.map handle := by
    rw [List.map_map]
    refine List.map_congr_left fun request _ => ?_
    rw [Function.comp_apply, answerLine, request.parse_compact]
  rw [serve_eq hreadable hlines, htexts, hanswers, answersUpTo, List.append_nil]

/-- If every line is a text, the lines of the output answer the lines of the input that are not blank, each the
one in its place, and their number is given. At a line that is no text the worker fails, having answered the
lines in front of it. Requests that are written on lines are met in order. -/
theorem serve_answers :
    (∀ bytes : List UInt8, (∀ line ∈ byteLines bytes, (lineText? line).isSome) →
      ∃ answers : List String, (serve bytes).output = Text.ofLines answers ∧
        (serve bytes).answered = .ok answers.length ∧
          List.Forall₂ Answers (textsOf (byteLines bytes)) answers) ∧
    (∀ (bytes : List UInt8) (before : List (List UInt8)) (line : List UInt8) (after : List (List UInt8)),
      byteLines bytes = before ++ line :: after → (∀ other ∈ before, (lineText? other).isSome) →
        lineText? line = none →
          ∃ answers : List String, (serve bytes).output = Text.ofLines answers ∧
            (serve bytes).answered = .error (.io "stream did not contain valid UTF-8") ∧
              List.Forall₂ Answers (textsOf before) answers) ∧
    ∀ requests : List Request,
      serve (requests.flatMap fun request => bytesOf request.toJson.compact ++ [10]) =
        ⟨requests.map handle, none⟩ := by
  refine ⟨?_, ?_, serve_requests⟩
  · intro bytes htexts
    have hserve := serve_eq htexts (List.append_nil _).symm
    rw [answersUpTo, List.append_nil] at hserve
    rw [hserve]
    refine ⟨_, rfl, ?_, forall₂_answers _⟩
    simp [Served.answered]
  · intro bytes before line after hlines htexts hline
    have hstop : answersUpTo respondTo (line :: after) = ([], some (.io "stream did not contain valid UTF-8")) := by
      rw [answersUpTo, respondTo, hline]
    have hserve := serve_eq htexts hlines
    rw [hstop, List.append_nil] at hserve
    rw [hserve]
    exact ⟨_, rfl, rfl, forall₂_answers _⟩

end Minifier.Worker
