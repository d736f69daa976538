import Minifier.Json.Printer
import Minifier.Proofs.Json.Source
import Minifier.Text.Basic

/-!
Writing values. What is written for the value of a source is again the text of a source with that value. It
nests no deeper, and outside its strings it has no blanks.
-/

namespace Minifier.Json

/-! ### Outside strings -/

/-- The characters of a text that stand outside its strings and their quotes; `quoted` tells that the text
begins inside one. -/
def outsideStrings : (quoted : Bool) → List Char → List Char
  | _, [] => []
  | false, c :: rest => if c = '"' then outsideStrings true rest else c :: outsideStrings false rest
  | true, '\\' :: _ :: rest => outsideStrings true rest
  | true, c :: rest => if c = '"' then outsideStrings false rest else outsideStrings true rest

/-- A text with whole strings and without blanks outside them, whatever follows it. -/
def Tight (text : List Char) : Prop :=
  ∀ tail, ∀ c ∈ outsideStrings false (text ++ tail), Text.isBlank c = false ∨ c ∈ outsideStrings false tail

namespace Tight

theorem nil : Tight [] := fun _ _ hc => .inr hc

theorem append {first second : List Char} (hfirst : Tight first) (hsecond : Tight second) :
    Tight (first ++ second) := by
  intro tail c hc
  rw [List.append_assoc] at hc
  rcases hfirst (second ++ tail) c hc with hblank | hlater
  · exact .inl hblank
  · exact hsecond tail c hlater

theorem singleton {c : Char} (hquote : c ≠ '"') (hblank : Text.isBlank c = false) : Tight [c] := by
  intro tail other hother
  rw [List.singleton_append, outsideStrings, if_neg hquote, List.mem_cons] at hother
  rcases hother with rfl | hother
  · exact .inl hblank
  · exact .inr hother

theorem of_forall {text : List Char} (h : ∀ c ∈ text, c ≠ '"' ∧ Text.isBlank c = false) : Tight text := by
  induction text with
  | nil => exact nil
  | cons c text ih =>
    rw [List.forall_mem_cons] at h
    exact (singleton h.1.1 h.1.2).append (ih h.2)

theorem of_all {text : List Char} (h : (text.all fun c => c != '"' && !Text.isBlank c) = true) : Tight text :=
  of_forall fun c hc => by simpa using List.all_eq_true.mp h c hc

end Tight

theorem outsideStrings_plain {c : Char} (hquote : c ≠ '"') (hbackslash : c ≠ '\\') (rest : List Char) :
    outsideStrings true (c :: rest) = outsideStrings true rest := by
  rw [outsideStrings, if_neg hquote]
  rintro - - rfl
  exact absurd rfl hbackslash

theorem HexDigit.char_ne (digit : HexDigit) : digit.char ≠ '"' ∧ digit.char ≠ '\\' := by
  obtain ⟨value, isUpper⟩ := digit
  revert value isUpper
  decide

/-- An item does not end its string. -/
theorem outsideStrings_item (item : Item) (rest : List Char) :
    outsideStrings true (item.text ++ rest) = outsideStrings true rest := by
  cases item with
  | plain c allowed => exact outsideStrings_plain allowed.1 allowed.2.1 rest
  | escape letter => rfl
  | unit a b c d =>
    have hescape : outsideStrings true ((Item.unit a b c d).text ++ rest) =
        outsideStrings true (a.char :: b.char :: c.char :: d.char :: rest) := rfl
    rw [hescape, outsideStrings_plain a.char_ne.1 a.char_ne.2, outsideStrings_plain b.char_ne.1 b.char_ne.2,
      outsideStrings_plain c.char_ne.1 c.char_ne.2, outsideStrings_plain d.char_ne.1 d.char_ne.2]

theorem Tight.quoted (items : List Item) : Tight (Item.quoted items) := by
  have hitems : ∀ rest, outsideStrings true (items.flatMap Item.text ++ rest) = outsideStrings true rest := by
    intro rest
    induction items with
    | nil => rfl
    | cons item items ih => rw [List.flatMap_cons, List.append_assoc, outsideStrings_item, ih]
  intro tail c hc
  rw [Item.quoted, List.cons_append, List.append_assoc, outsideStrings, if_pos rfl, hitems] at hc
  exact .inr hc

/-! ### Strings as they are written -/

/-- A digit as it is written. -/
def HexDigit.lower (value : Fin 16) : HexDigit := ⟨value, false⟩

/-- A character as it is written. -/
def Item.ofChar (c : Char) : Item :=
  if hquote : c = '"' then .escape .quote
  else if hbackslash : c = '\\' then .escape .backslash
  else if c = '\x08' then .escape .backspace
  else if c = '\x0c' then .escape .formFeed
  else if c = '\n' then .escape .lineFeed
  else if c = '\r' then .escape .carriageReturn
  else if c = '\t' then .escape .tab
  else if hcontrol : c.toNat < 32 then
    .unit .zero .zero (.lower ⟨c.toNat / 16, by omega⟩) (.lower ⟨c.toNat % 16, by omega⟩)
  else .plain c ⟨hquote, hbackslash, Nat.not_lt.mp hcontrol⟩

theorem Item.text_ofChar (c : Char) : (Item.ofChar c).text = escapeChar c := by
  rw [Item.ofChar, escapeChar]
  simp only [beq_iff_eq]
  split_ifs <;> rfl

/-- A control character that has no letter is its own code unit. -/
theorem Item.chars?_control {c : Char} (hcontrol : c.toNat < 32) (rest : List Item) :
    Item.chars? (.unit .zero .zero (.lower ⟨c.toNat / 16, by omega⟩)
      (.lower ⟨c.toNat % 16, by omega⟩) :: rest) = (Item.chars? rest).map (c :: ·) := by
  have hunit : codeUnit .zero .zero (.lower ⟨c.toNat / 16, by omega⟩)
      (.lower ⟨c.toNat % 16, by omega⟩) = c.toNat := by
    simp only [codeUnit, HexDigit.zero, HexDigit.lower]
    omega
  have hnotLow : ¬ isLowUnit c.toNat := fun hlow => by
    have hle := hlow.1
    omega
  have hnotHigh : ¬ isHighUnit c.toNat := fun hhigh => by
    have hle := hhigh.1
    omega
  rw [Item.chars?_unit, hunit, if_neg hnotLow, if_neg hnotHigh, Char.ofNat_toNat]

theorem Item.chars?_ofChar (c : Char) (rest : List Item) :
    Item.chars? (Item.ofChar c :: rest) = (Item.chars? rest).map (c :: ·) := by
  rw [Item.ofChar]
  split_ifs with hquote hbackslash hbackspace hformFeed hlineFeed hreturn htab hcontrol
  any_goals
    subst c
    rfl
  · exact Item.chars?_control hcontrol rest
  · rfl

theorem Item.string?_ofChars (text : String) : Item.string? (text.toList.map Item.ofChar) = some text := by
  have hchars : ∀ chars : List Char, Item.chars? (chars.map Item.ofChar) = some chars := by
    intro chars
    induction chars with
    | nil => rfl
    | cons c chars ih => rw [List.map_cons, Item.chars?_ofChar, ih, Option.map_some]
  rw [Item.string?, hchars, Option.map_some, String.ofList_toList]

/-- A string is written as the items of its characters. -/
theorem escapeOnto_eq (chars tail : List Char) :
    escapeOnto chars tail = Item.quoted (chars.map Item.ofChar) ++ tail := by
  rw [escapeOnto, Item.quoted, List.foldl_reverse, List.cons_append, List.append_assoc, List.flatMap_map]
  congr 1
  induction chars with
  | nil => rfl
  | cons c chars ih => rw [List.foldr_cons, ih, List.flatMap_cons, Item.text_ofChar, List.append_assoc]

/-! ### Values as they are written -/

mutual

/-- A value that stands without blanks. -/
def Source.Bare : Source → Prop
  | .null | .bool _ | .integer _ _ | .string _ => True
  | .array inner elements => inner.chars = [] ∧ elements.Bare
  | .object inner fields => inner.chars = [] ∧ fields.Bare

def Elements.Bare : Elements → Prop
  | .none => True
  | .more before element after rest => before.chars = [] ∧ element.Bare ∧ after.chars = [] ∧ rest.Bare

def Fields.Bare : Fields → Prop
  | .none => True
  | .more before _ beforeColon afterColon value after rest =>
    before.chars = [] ∧ beforeColon.chars = [] ∧ afterColon.chars = [] ∧ value.Bare ∧ after.chars = [] ∧
      rest.Bare

end

theorem not_quote_of_isDigit {d : Char} (h : d.isDigit = true) : d ≠ '"' ∧ Text.isBlank d = false := by
  have hrange : 48 ≤ d.toNat ∧ d.toNat ≤ 57 := by
    simp only [Char.isDigit, Bool.and_eq_true, decide_eq_true_eq] at h
    exact ⟨UInt32.le_iff_toNat_le.mp h.1, UInt32.le_iff_toNat_le.mp h.2⟩
  constructor
  · rintro rfl
    exact absurd h (by decide)
  · simp [Text.isBlank]
    omega

mutual

theorem Source.Bare.tight : {source : Source} → source.Bare → Tight source.text
  | .null, _ => .of_all rfl
  | .bool true, _ => .of_all rfl
  | .bool false, _ => .of_all rfl
  | .integer n fits, _ => by
    have hdigits : Tight (Nat.toDigits 10 n.natAbs) := .of_forall fun d hd =>
      not_quote_of_isDigit (Nat.isDigit_of_mem_toDigits (by decide) (by decide) hd)
    have hsign : Tight (if n < 0 then ['-'] else []) := by
      split
      · exact .singleton (by decide) (by decide)
      · exact .nil
    exact hsign.append hdigits
  | .string items, _ => .quoted items
  | .array inner elements, ⟨hinner, helements⟩ => by
    have hall := (Tight.singleton (c := '[') (by decide) (by decide)).append
      ((helements.tight true).append (.singleton (c := ']') (by decide) (by decide)))
    simpa [Source.text, hinner] using hall
  | .object inner fields, ⟨hinner, hfields⟩ => by
    have hall := (Tight.singleton (c := '\x7b') (by decide) (by decide)).append
      ((hfields.tight true).append (.singleton (c := '\x7d') (by decide) (by decide)))
    simpa [Source.text, hinner] using hall

theorem Elements.Bare.tight : {elements : Elements} → elements.Bare → (first : Bool) →
    Tight (elements.text first)
  | .none, _, _ => .nil
  | .more before element after rest, ⟨hbefore, helement, hafter, hrest⟩, first => by
    have hcomma : Tight (if first then [] else [',']) := by
      cases first
      · exact .singleton (by decide) (by decide)
      · exact .nil
    have hall := hcomma.append (helement.tight.append (hrest.tight false))
    simpa [Elements.text, hbefore, hafter] using hall

theorem Fields.Bare.tight : {fields : Fields} → fields.Bare → (first : Bool) → Tight (fields.text first)
  | .none, _, _ => .nil
  | .more before key beforeColon afterColon value after rest,
      ⟨hbefore, hbeforeColon, hafterColon, hvalue, hafter, hrest⟩, first => by
    have hcomma : Tight (if first then [] else [',']) := by
      cases first
      · exact .singleton (by decide) (by decide)
      · exact .nil
    have hcolon : Tight [':'] := .singleton (by decide) (by decide)
    have hall := hcomma.append ((Tight.quoted key).append
      (hcolon.append (hvalue.tight.append (hrest.tight false))))
    simpa [Fields.text, hbefore, hbeforeColon, hafterColon, hafter] using hall

end

/-! ### A source for what is written -/

/-- A source is what is written for a value. -/
structure Source.Writes (source : Source) (value : Json) : Prop where
  means : source.value? = some value
  written (tail : List Char) : compactOnto value tail = source.text ++ tail
  bare : source.Bare

/-- Elements are what is written for values. -/
structure Elements.Writes (elements : Elements) (values : List Json) : Prop where
  means : elements.values? = some values
  written (first : Bool) (tail : List Char) :
    compactElements first values tail = elements.text first ++ tail
  bare : elements.Bare

/-- Fields are what is written for members. -/
structure Fields.Writes (fields : Fields) (members : Members) : Prop where
  means : fields.given? = some members
  written (first : Bool) (tail : List Char) :
    compactMembers first members tail = fields.text first ++ tail
  bare : fields.Bare

def Blanks.none : Blanks := ⟨[], nofun⟩

theorem Source.writes_integer {n : Int} (fits : -2 ^ 63 ≤ n ∧ n < 2 ^ 64) :
    (Source.integer n fits).Writes (ofInt n) where
  means := rfl
  written tail := by
    rw [Source.text, ofInt]
    by_cases hsign : 0 ≤ n
    · have hnat : n.toNat = n.natAbs := by omega
      rw [if_pos hsign, if_neg (Int.not_lt.mpr hsign), ofNat, hnat]
      rfl
    · rw [if_neg hsign, if_pos (Int.not_le.mp hsign)]
      rfl
  bare := trivial

theorem Source.writes_string (text : String) :
    (Source.string (text.toList.map Item.ofChar)).Writes (.string text) where
  means := by rw [Source.value?, Item.string?_ofChars, Option.map_some]
  written tail := escapeOnto_eq text.toList tail
  bare := trivial

theorem Source.writes_array {elements : Elements} {values : List Json} (h : elements.Writes values) :
    (Source.array .none elements).Writes (.array values) where
  means := by rw [Source.value?, h.means, Option.map_some]
  written tail := by
    rw [compactOnto, h.written, Source.text]
    simp [Blanks.none]
  bare := ⟨rfl, h.bare⟩

/-- Members that are settled are written as they are. -/
theorem Source.writes_object {fields : Fields} {given : Members} (h : fields.Writes (Members.settle given)) :
    (Source.object .none fields).Writes (.object (Members.settle given)) where
  means := by rw [Source.value?, h.means, Option.map_some, Members.settle_settle]
  written tail := by
    rw [compactOnto, h.written, Source.text]
    simp [Blanks.none]
  bare := ⟨rfl, h.bare⟩

theorem Elements.writes_more {element : Source} {value : Json} {rest : Elements} {values : List Json}
    (helement : element.Writes value) (hrest : rest.Writes values) :
    (Elements.more .none element .none rest).Writes (value :: values) where
  means := by
    rw [Elements.values?, helement.means, hrest.means]
    rfl
  written first tail := by
    rw [compactElements, helement.written, hrest.written, Elements.text]
    cases first <;> simp [Blanks.none]
  bare := ⟨rfl, helement.bare, rfl, hrest.bare⟩

theorem Fields.writes_more (key : String) {source : Source} {value : Json} {rest : Fields}
    {members : Members} (hvalue : source.Writes value) (hrest : rest.Writes members) :
    (Fields.more .none (key.toList.map Item.ofChar) .none .none source .none rest).Writes
      ((key, value) :: members) where
  means := by
    rw [Fields.given?, Item.string?_ofChars, hvalue.means, hrest.means]
    rfl
  written first tail := by
    rw [compactMembers, hvalue.written, hrest.written, escapeOnto_eq, Fields.text]
    cases first <;> simp [Blanks.none]
  bare := ⟨rfl, rfl, rfl, hvalue.bare, rfl, hrest.bare⟩

/-- Members are written if their values are. -/
theorem Fields.exists_writes_of_members {depth : Nat} {members : Members}
    (h : ∀ member ∈ members, ∃ bare : Source, bare.Writes member.2 ∧ bare.depth ≤ depth) :
    ∃ bare : Fields, bare.Writes members ∧ bare.depth ≤ depth := by
  induction members with
  | nil => exact ⟨.none, ⟨rfl, fun _ _ => rfl, trivial⟩, Nat.zero_le _⟩
  | cons member members ih =>
    rw [List.forall_mem_cons] at h
    obtain ⟨source, hsource, hsourceDepth⟩ := h.1
    obtain ⟨rest, hrest, hrestDepth⟩ := ih h.2
    exact ⟨_, Fields.writes_more member.1 hsource hrest, Nat.max_le.mpr ⟨hsourceDepth, hrestDepth⟩⟩

mutual

/-- What is written for the value of a source is a source that nests no deeper. -/
theorem Source.exists_writes : (source : Source) → {value : Json} → source.value? = some value →
    ∃ bare : Source, bare.Writes value ∧ bare.depth ≤ source.depth
  | .null, _, h => by
    obtain rfl := Option.some.inj h
    exact ⟨.null, ⟨rfl, fun _ => rfl, trivial⟩, le_rfl⟩
  | .bool true, _, h => by
    obtain rfl := Option.some.inj h
    exact ⟨.bool true, ⟨rfl, fun _ => rfl, trivial⟩, le_rfl⟩
  | .bool false, _, h => by
    obtain rfl := Option.some.inj h
    exact ⟨.bool false, ⟨rfl, fun _ => rfl, trivial⟩, le_rfl⟩
  | .integer n fits, _, h => by
    obtain rfl := Option.some.inj h
    exact ⟨.integer n fits, Source.writes_integer fits, le_rfl⟩
  | .string items, _, h => by
    obtain ⟨text, -, rfl⟩ := Option.map_eq_some_iff.mp h
    exact ⟨_, Source.writes_string text, le_rfl⟩
  | .array inner elements, _, h => by
    obtain ⟨values, hvalues, rfl⟩ := Option.map_eq_some_iff.mp h
    obtain ⟨bare, hbare, hdepth⟩ := elements.exists_writes hvalues
    exact ⟨_, Source.writes_array hbare, Nat.succ_le_succ hdepth⟩
  | .object inner fields, _, h => by
    obtain ⟨given, hgiven, rfl⟩ := Option.map_eq_some_iff.mp h
    obtain ⟨bare, hbare, hdepth⟩ := Fields.exists_writes_of_members fun member hmember =>
      fields.exists_writes hgiven member (Members.mem_of_mem_settle hmember)
    exact ⟨_, Source.writes_object hbare, Nat.succ_le_succ hdepth⟩

theorem Elements.exists_writes : (elements : Elements) → {values : List Json} →
    elements.values? = some values → ∃ bare : Elements, bare.Writes values ∧ bare.depth ≤ elements.depth
  | .none, _, h => by
    obtain rfl := Option.some.inj h
    exact ⟨.none, ⟨rfl, fun _ _ => rfl, trivial⟩, le_rfl⟩
  | .more before element after rest, _, h => by
    obtain ⟨value, hvalue, values, hvalues, rfl⟩ :
        ∃ value, element.value? = some value ∧ ∃ values, rest.values? = some values ∧ value :: values = _ := by
      simpa [Elements.values?, Option.bind_eq_some_iff] using h
    obtain ⟨bare, hbare, hdepth⟩ := element.exists_writes hvalue
    obtain ⟨others, hothers, hothersDepth⟩ := rest.exists_writes hvalues
    exact ⟨_, Elements.writes_more hbare hothers,
      Nat.max_le.mpr ⟨hdepth.trans (Nat.le_max_left _ _), hothersDepth.trans (Nat.le_max_right _ _)⟩⟩

/-- Every value that is given in an object is written. -/
theorem Fields.exists_writes : (fields : Fields) → {given : Members} → fields.given? = some given →
    ∀ member ∈ given, ∃ bare : Source, bare.Writes member.2 ∧ bare.depth ≤ fields.depth
  | .none, _, h => by
    obtain rfl := Option.some.inj h
    exact nofun
  | .more before key beforeColon afterColon value after rest, _, h => by
    obtain ⟨name, -, json, hjson, others, hothers, rfl⟩ :
        ∃ name, Item.string? key = some name ∧ ∃ json, value.value? = some json ∧
          ∃ others, rest.given? = some others ∧ (name, json) :: others = _ := by
      simpa [Fields.given?, Option.bind_eq_some_iff] using h
    rw [List.forall_mem_cons]
    constructor
    · obtain ⟨bare, hbare, hdepth⟩ := value.exists_writes hjson
      exact ⟨bare, hbare, hdepth.trans (Nat.le_max_left _ _)⟩
    · intro member hmember
      obtain ⟨bare, hbare, hdepth⟩ := rest.exists_writes hothers member hmember
      exact ⟨bare, hbare, hdepth.trans (Nat.le_max_right _ _)⟩

end

end Minifier.Json
