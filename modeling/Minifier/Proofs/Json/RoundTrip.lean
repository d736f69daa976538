import Minifier.Minify
import Minifier.Proofs.Json.Reading
import Minifier.Proofs.Json.Writing

/-!
Minifying JSON whose numbers are integers. A document is read as the value that is meant, and what is written
for it has no blanks outside strings, means the same and is minified to itself. The one thing that a
document must not hold is half a surrogate pair: a string has no character for it.
-/

namespace Minifier.Json

/-- A value and the blanks around it. -/
structure Document where
  before : Blanks
  source : Source
  after : Blanks

def Document.text (document : Document) : String :=
  String.ofList (document.before.chars ++ document.source.text ++ document.after.chars)

theorem Document.text_ne_empty (document : Document) : document.text ≠ "" := by
  obtain ⟨c, rest, htext, -, -⟩ := document.source.exists_text_cons
  intro hempty
  have hnil := congrArg String.toList hempty
  rw [Document.text, String.toList_ofList, htext] at hnil
  simp at hnil

theorem Document.parse_text (document : Document) {value : Json}
    (hvalue : document.source.value? = some value) (hdepth : document.source.depth ≤ depthLimit) :
    parse document.text = .ok value := by
  rw [parse, Document.text, String.toList_ofList]
  exact parseChars_text document.before document.source document.after hvalue hdepth

/-- A source without blanks around it. -/
def Source.alone (source : Source) : Document := ⟨.none, source, .none⟩

theorem Source.text_alone (source : Source) : source.alone.text = String.ofList source.text := by
  rw [alone, Document.text, Blanks.none, List.nil_append, List.append_nil]

/-- A document is minified to what is written for its value. -/
theorem Document.minifyJson_text (document : Document) {value : Json} {bare : Source}
    (hvalue : document.source.value? = some value) (hdepth : document.source.depth ≤ depthLimit)
    (hbare : bare.Writes value) :
    minifyJson document.text = .ofTexts document.text bare.alone.text [] := by
  have hparse := document.parse_text hvalue hdepth
  have hempty : document.text.isEmpty = false := by
    rw [Bool.eq_false_iff, ne_eq, String.isEmpty_iff]
    exact document.text_ne_empty
  have hminify : Data.minify document.text.toList = .ok bare.text := by
    rw [Data.minify, ← parse, hparse, ← List.append_nil bare.text, ← hbare.written]
    rfl
  rw [minifyJson, guarded, hempty]
  simp only [hminify, Bool.false_eq_true, if_false]
  rw [bare.text_alone]

/-- A document whose surrogates are paired and whose containers do not nest too deeply is minified without
errors. What comes out has no blanks outside its strings, is read as the value that is meant, and is
minified to itself. -/
theorem minifyJson_document (document : Document) {value : Json}
    (hvalue : document.source.value? = some value) (hdepth : document.source.depth ≤ depthLimit) :
    (minifyJson document.text).errors = [] ∧
      (∀ c ∈ outsideStrings false (minifyJson document.text).minified.toList, Text.isBlank c = false) ∧
      parse document.text = .ok value ∧
      parse (minifyJson document.text).minified = .ok value ∧
      minifyJson (minifyJson document.text).minified = .unchanged (minifyJson document.text).minified := by
  obtain ⟨bare, hbare, hbareDepth⟩ := document.source.exists_writes hvalue
  have hlimit : bare.depth ≤ depthLimit := hbareDepth.trans hdepth
  rw [document.minifyJson_text hvalue hdepth hbare]
  refine ⟨rfl, ?_, document.parse_text hvalue hdepth, bare.alone.parse_text hbare.means hlimit,
    bare.alone.minifyJson_text hbare.means hlimit hbare⟩
  intro c hc
  have htight := hbare.bare.tight [] c
  rw [List.append_nil] at htight
  rw [Outcome.ofTexts, bare.text_alone, String.toList_ofList] at hc
  rcases htight hc with hblank | hnone
  · exact hblank
  · exact absurd hnone List.not_mem_nil

def Blanks.space : Blanks := ⟨[' '], by simp⟩

/-- A list and a pair of surrogates, then the first key once more in other characters. -/
def repeatedKey : Document where
  before := ⟨['\n'], by simp⟩
  source := .object .none
    (.more .none [.plain 'a' (by decide)] .none .space
      (.array .none
        (.more .none (.integer 1 (by decide)) .none
        (.more .space (.integer (-2) (by decide)) .none .none))) .none
    (.more .space [.plain 'b' (by decide)] .none .space
      (.string [.unit ⟨13, false⟩ ⟨8, false⟩ ⟨3, false⟩ ⟨13, true⟩,
        .unit ⟨13, false⟩ ⟨14, false⟩ ⟨0, false⟩ ⟨0, false⟩, .escape .lineFeed]) .none
    (.more .space [.unit ⟨0, false⟩ ⟨0, false⟩ ⟨6, false⟩ ⟨1, false⟩] .none .space
      .null .none .none)))
  after := ⟨[' ', '\n'], by simp⟩

example : repeatedKey.text =
    "\n\x7b\"a\": [1, -2], \"b\": \"\\ud83D\\ude00\\n\", \"\\u0061\": null\x7d \n" := by rfl

theorem minifyJson_repeatedKey :
    repeatedKey.source.value? = some (.object [("a", .null), ("b", .string "😀\n")]) ∧
      repeatedKey.source.depth ≤ depthLimit ∧
      (minifyJson repeatedKey.text).errors = [] ∧
      (∀ c ∈ outsideStrings false (minifyJson repeatedKey.text).minified.toList, Text.isBlank c = false) ∧
      parse repeatedKey.text = .ok (.object [("a", .null), ("b", .string "😀\n")]) ∧
      parse (minifyJson repeatedKey.text).minified = .ok (.object [("a", .null), ("b", .string "😀\n")]) ∧
      minifyJson (minifyJson repeatedKey.text).minified =
        .unchanged (minifyJson repeatedKey.text).minified :=
  ⟨rfl, by decide, minifyJson_document repeatedKey rfl (by decide)⟩

/-- The first half of a surrogate pair, with nothing after it. -/
def halfPair : Document where
  before := .none
  source := .string [.unit ⟨13, false⟩ ⟨8, false⟩ ⟨0, false⟩ ⟨0, false⟩]
  after := .none

/-- Not every document is minified: half a surrogate pair is refused. -/
theorem not_minifyJson_halfPair :
    ¬ ∀ document : Document, document.source.depth ≤ depthLimit →
      (minifyJson document.text).errors = [] := by
  intro hall
  have herrors := hall halfPair (by decide)
  exact absurd herrors (by decide +kernel)

/-!
## Values on lines of their own

The members of an object that is written so are again the fields of a
source: each has a line break and its indentation before its key and one space behind its colon, and the last
one has the break before the closing brace behind it.
-/

/-- A line break and the indentation at a depth. -/
def Blanks.newline (depth : Nat) : Blanks where
  chars := '\n' :: List.replicate (2 * depth) ' '
  blank c hc := by
    rcases List.mem_cons.mp hc with rfl | hc
    · simp
    · exact .inl (List.eq_of_mem_replicate hc)

theorem breakOnto_eq (depth : Nat) (tail : List Char) : breakOnto depth tail = (Blanks.newline depth).chars ++ tail :=
  rfl

/-- A source is what is written for a value on lines of its own at a depth. -/
structure Source.Lays (source : Source) (depth : Nat) (value : Json) : Prop where
  means : source.value? = some value
  laid (tail : List Char) : prettyOnto depth value tail = source.text ++ tail

/-- A value that holds no others stands on its line as it would without line breaks. -/
theorem Source.Writes.lays {source : Source} {value : Json} (h : source.Writes value) (hscalar : value.IsScalar)
    (depth : Nat) : source.Lays depth value where
  means := h.means
  laid tail := by
    rw [← h.written]
    cases value with
    | array elements => exact hscalar.elim
    | object members => exact hscalar.elim
    | _ => rw [prettyOnto] <;> nofun

/-- Members on lines of their own, with the break behind the last of them, are fields of a source. -/
theorem Fields.exists_lays {depth limit : Nat} (outer : Nat) {key : String} {value : Json} {members : Members}
    (h : ∀ member ∈ (key, value) :: members, ∃ source : Source, source.Lays depth member.2 ∧ source.depth ≤ limit) :
    ∃ fields : Fields, fields.given? = some ((key, value) :: members) ∧ fields.depth ≤ limit ∧
      ∀ (first : Bool) (tail : List Char),
        fields.text first ++ tail =
          (if first then [] else [',']) ++ breakOnto depth (escapeOnto key.toList
            (':' :: ' ' :: prettyOnto depth value (prettyMembers depth members (breakOnto outer tail)))) := by
  induction members generalizing key value with
  | nil =>
    obtain ⟨source, hsource, hdepth⟩ := h (key, value) List.mem_cons_self
    refine ⟨.more (.newline depth) (key.toList.map Item.ofChar) .none .space source (.newline outer) .none,
      ?_, Nat.max_le.mpr ⟨hdepth, Nat.zero_le _⟩, ?_⟩
    · rw [Fields.given?, Item.string?_ofChars, hsource.means]
      rfl
    · intro first tail
      rw [prettyMembers, breakOnto_eq, breakOnto_eq, escapeOnto_eq, hsource.laid]
      simp [Fields.text, Blanks.none, Blanks.space]
  | cons member members ih =>
    obtain ⟨nextKey, nextValue⟩ := member
    rw [List.forall_mem_cons] at h
    obtain ⟨⟨source, hsource, hdepth⟩, hlater⟩ := h
    obtain ⟨later, hgiven, hlaterDepth, htext⟩ := ih hlater
    refine ⟨.more (.newline depth) (key.toList.map Item.ofChar) .none .space source .none later, ?_,
      Nat.max_le.mpr ⟨hdepth, hlaterDepth⟩, ?_⟩
    · rw [Fields.given?, Item.string?_ofChars, hsource.means, hgiven]
      rfl
    · intro first tail
      have hrest := htext false tail
      simp only [Bool.false_eq_true, if_false, List.singleton_append] at hrest
      rw [prettyMembers, ← hrest, breakOnto_eq, escapeOnto_eq, hsource.laid]
      simp [Fields.text, Blanks.none, Blanks.space]

/-- An object whose values are laid out is the text of a source that gives exactly its members. -/
theorem Source.exists_lays_object {depth limit : Nat} {members : Members}
    (h : ∀ member ∈ members, ∃ source : Source, source.Lays (depth + 1) member.2 ∧ source.depth ≤ limit) :
    ∃ fields : Fields, fields.given? = some members ∧ fields.depth ≤ limit ∧
      ∀ tail, prettyOnto depth (.object members) tail = (Source.object .none fields).text ++ tail := by
  cases members with
  | nil => exact ⟨.none, rfl, Nat.zero_le _, fun _ => rfl⟩
  | cons member members =>
    obtain ⟨fields, hgiven, hdepth, htext⟩ := Fields.exists_lays depth h
    refine ⟨fields, hgiven, hdepth, fun tail => ?_⟩
    have hrest := htext true ('\x7d' :: tail)
    simp only [if_true, List.nil_append] at hrest
    rw [prettyOnto, ← hrest]
    simp [Source.text, Blanks.none]

/-- An object with different keys is laid out if its values are. -/
theorem Source.exists_lays_of_members {depth limit : Nat} {members : Members} (hkeys : (members.map Prod.fst).Nodup)
    (h : ∀ member ∈ members, ∃ source : Source, source.Lays (depth + 1) member.2 ∧ source.depth ≤ limit) :
    ∃ source : Source, source.Lays depth (.object members) ∧ source.depth ≤ limit + 1 := by
  obtain ⟨fields, hgiven, hdepth, htext⟩ := Source.exists_lays_object h
  refine ⟨.object .none fields, ⟨?_, htext⟩, Nat.succ_le_succ hdepth⟩
  rw [Source.value?, hgiven, Option.map_some, Members.settle_eq_self hkeys]

theorem Source.exists_lays_string (text : String) (depth : Nat) :
    ∃ source : Source, source.Lays depth (.string text) ∧ source.depth ≤ 0 :=
  ⟨_, (Source.writes_string text).lays trivial depth, le_rfl⟩

/-- An array of strings is written as a source. -/
theorem Source.exists_writes_strings (texts : List String) :
    ∃ source : Source, source.Writes (strings texts) ∧ source.depth ≤ 1 := by
  have helements : ∃ elements : Elements, elements.Writes (texts.map .string) ∧ elements.depth ≤ 0 := by
    induction texts with
    | nil => exact ⟨.none, ⟨rfl, fun _ _ => rfl, trivial⟩, le_rfl⟩
    | cons text texts ih =>
      obtain ⟨rest, hrest, hdepth⟩ := ih
      exact ⟨_, Elements.writes_more (Source.writes_string text) hrest, Nat.max_le.mpr ⟨le_rfl, hdepth⟩⟩
  obtain ⟨elements, hwrites, hdepth⟩ := helements
  exact ⟨_, Source.writes_array hwrites, Nat.succ_le_succ hdepth⟩

/-- What is written for the value of a source is read as that value. -/
theorem Source.Writes.parse_compact {source : Source} {value : Json} (h : source.Writes value)
    (hdepth : source.depth ≤ depthLimit) : parse value.compact = .ok value := by
  have hparse := source.alone.parse_text h.means hdepth
  rw [Source.text_alone] at hparse
  rw [compact, h.written, List.append_nil, hparse]

theorem Source.Lays.parse_pretty {source : Source} {value : Json} (h : source.Lays 0 value)
    (hdepth : source.depth ≤ depthLimit) : parse value.pretty = .ok value := by
  have hparse := source.alone.parse_text h.means hdepth
  rw [Source.text_alone] at hparse
  rw [pretty, h.laid, List.append_nil, hparse]

/-! ### Plain values -/

/-- A string or a truth value. -/
def IsPlain : Json → Prop
  | .string _ | .bool _ => True
  | _ => False

namespace IsPlain

variable {value : Json}

theorem ne_null (h : value.IsPlain) : value ≠ .null := by
  rintro rfl
  exact h

theorem isScalar (h : value.IsPlain) : value.IsScalar := by
  cases value <;> first | exact trivial | exact h.elim

theorem exists_writes (h : value.IsPlain) : ∃ source : Source, source.Writes value ∧ source.depth ≤ 0 := by
  cases value with
  | string text => exact ⟨_, Source.writes_string text, le_rfl⟩
  | bool value => cases value <;> exact ⟨.bool _, ⟨rfl, fun _ => rfl, trivial⟩, le_rfl⟩
  | _ => exact h.elim

end IsPlain

variable {members : Members}

/-- An object of plain values without line breaks is the text of a source that gives exactly its members. -/
theorem exists_text_eq_compact (h : ∀ member ∈ members, member.2.IsPlain) :
    ∃ fields : Fields, fields.given? = some members ∧
      (Source.object .none fields).alone.text = (Json.object members).compact := by
  obtain ⟨fields, hfields, -⟩ := Fields.exists_writes_of_members fun member hmember => (h member hmember).exists_writes
  refine ⟨fields, hfields.means, ?_⟩
  rw [Source.text_alone, compact, compactOnto, hfields.written]
  simp [Source.text, Blanks.none]

/-- An object of plain values, each on its line, is the text of a source that gives exactly its members. -/
theorem exists_text_eq_pretty (h : ∀ member ∈ members, member.2.IsPlain) :
    ∃ fields : Fields, fields.given? = some members ∧
      (Source.object .none fields).alone.text = (Json.object members).pretty := by
  have hlays : ∀ member ∈ members, ∃ source : Source, source.Lays (0 + 1) member.2 ∧ source.depth ≤ 0 := by
    intro member hmember
    obtain ⟨source, hsource, hdepth⟩ := (h member hmember).exists_writes
    exact ⟨source, hsource.lays (h member hmember).isScalar 1, hdepth⟩
  obtain ⟨fields, hgiven, -, htext⟩ := Source.exists_lays_object hlays
  refine ⟨fields, hgiven, ?_⟩
  rw [Source.text_alone, pretty, htext, List.append_nil]

/-! ### The characters of what is written -/

/-- What is written for a plain value stands in front of any tail. -/
theorem IsPlain.prettyOnto_eq {value : Json} (h : value.IsPlain) (depth : Nat) (tail : List Char) :
    prettyOnto depth value tail = value.compact.toList ++ tail := by
  obtain ⟨source, hsource, -⟩ := h.exists_writes
  rw [(hsource.lays h.isScalar depth).laid, compact, String.toList_ofList, hsource.written, List.append_nil]

theorem escapeOnto_eq_quote (text : String) (tail : List Char) :
    escapeOnto text.toList tail = (quote text).toList ++ tail := by
  rw [quote, String.toList_ofList, escapeOnto_eq, escapeOnto_eq, List.append_nil]

/-- A character that no key and no value holds, and that does not set them off, is nowhere in an object. -/
theorem not_mem_pretty_object {c : Char} (hc : c ∉ ['\x7b', '\x7d', ',', ':', ' ', '\n']) {members : Members}
    (h : ∀ member ∈ members, member.2.IsPlain ∧ c ∉ (quote member.1).toList ∧ c ∉ member.2.compact.toList) :
    c ∉ (Json.object members).pretty.toList := by
  simp only [List.mem_cons, List.not_mem_nil, or_false, not_or] at hc
  have hbreak {depth : Nat} {tail : List Char} (htail : c ∉ tail) : c ∉ breakOnto depth tail := by
    simp [breakOnto, hc, htail]
  have hmembers {depth : Nat} {members : Members} {tail : List Char}
      (h : ∀ member ∈ members, member.2.IsPlain ∧ c ∉ (quote member.1).toList ∧ c ∉ member.2.compact.toList)
      (htail : c ∉ tail) : c ∉ prettyMembers depth members tail := by
    induction members with
    | nil => exact htail
    | cons member members ih =>
      obtain ⟨⟨hplain, hkey, hvalue⟩, hmore⟩ := List.forall_mem_cons.mp h
      rw [prettyMembers, escapeOnto_eq_quote, hplain.prettyOnto_eq, List.mem_cons, not_or]
      refine ⟨hc.2.2.1, hbreak ?_⟩
      simp [hkey, hvalue, hc, ih hmore]
  rw [pretty, String.toList_ofList]
  cases members with
  | nil => simp [prettyOnto, hc]
  | cons member members =>
    obtain ⟨⟨hplain, hkey, hvalue⟩, hmore⟩ := List.forall_mem_cons.mp h
    rw [prettyOnto, escapeOnto_eq_quote, hplain.prettyOnto_eq, List.mem_cons, not_or]
    refine ⟨hc.1, hbreak ?_⟩
    have hclose : c ∉ breakOnto 0 ['\x7d'] := hbreak (by simp [hc])
    have hrest : c ∉ prettyMembers (0 + 1) members (breakOnto 0 ['\x7d']) := hmembers hmore hclose
    simpa [hkey, hvalue, hc] using hrest

end Minifier.Json
