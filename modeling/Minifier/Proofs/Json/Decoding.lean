import Minifier.Json.Decoder
import Minifier.Proofs.Json.Grammar
import Minifier.Proofs.Json.RoundTrip

/-!
Taking values out of JSON, from a value that is at hand or from any text that stands for it, whatever its blanks
and escapes. A record whose fields are all written is read field by field, each by a decoder that reads its value off
what is written for it. The members of an object are read one after another: each field of a record is set from its own
member, and members with other keys are left to what collects them.
-/

namespace Minifier.Json

variable {α β ρ σ : Type}

/-- A decoder reads a value off what is written for it, whatever stands behind. -/
def Decoder.Reads (decoder : Decoder α) (json : Json) (value : α) : Prop :=
  ∀ tail, decoder.read (compactOnto json tail) = .ok (value, tail)

/-- What is written for a string is its items and a quote. -/
theorem escapeOnto_cons (text : String) (tail : List Char) :
    escapeOnto text.toList tail = '"' :: ((text.toList.map Item.ofChar).flatMap Item.text ++ '"' :: tail) := by
  rw [escapeOnto_eq, Item.quoted, List.cons_append, List.append_assoc, List.singleton_append]

theorem readString_written (text : String) (tail : List Char) :
    readString ((text.toList.map Item.ofChar).flatMap Item.text ++ '"' :: tail) = .ok (text, tail) :=
  readString_items (Item.string?_ofChars text) tail

namespace Decoder

variable {decoder : Decoder α} {json : Json} {value : α}

theorem Reads.map (h : decoder.Reads json value) (f : α → β) : (decoder.map f).Reads json (f value) := by
  intro tail
  exact congrArg (Except.map (Prod.map f id)) (h tail)

end Decoder

/-! ### What is written for a record -/

/-- A field of a record as it is written: the value that is written, and how it joins the others. -/
structure Written (ρ : Type) where
  field : Field ρ
  json : Json
  set : ρ → ρ

namespace Written

def member (written : Written ρ) : String × Json := (written.field.name, written.json)

/-- Whether a field is one of the record's and is read off what is written. -/
structure ReadIn (written : Written ρ) (record : Record ρ) : Prop where
  found : record.field? written.field.name = some written.field
  reads : written.field.decoder.Reads written.json written.set

/-- A value of a field as it is written. -/
def of (name : String) (required : Bool) (decoder : Decoder α) (set : α → ρ → ρ) (json : Json) (value : α) :
    Written ρ :=
  ⟨⟨name, required, decoder.map set⟩, json, set value⟩

theorem readIn_of {record : Record ρ} {name : String} {required : Bool} {decoder : Decoder α} {set : α → ρ → ρ}
    {json : Json} {value : α} (hfound : record.field? name = some ⟨name, required, decoder.map set⟩)
    (hreads : decoder.Reads json value) : (of name required decoder set json value).ReadIn record :=
  ⟨hfound, hreads.map set⟩

/-- Once a field was seen, those behind it are still new. -/
theorem new_of_cons {entry : Written ρ} {written : List (Written ρ)} {seen : List String}
    (hnames : ((entry :: written).map fun entry => entry.field.name).Nodup)
    (hnew : ∀ other ∈ entry :: written, other.field.name ∉ seen) :
    ∀ other ∈ written, other.field.name ∉ entry.field.name :: seen := by
  rw [List.map_cons, List.nodup_cons] at hnames
  intro other hother hmem
  rcases List.mem_cons.mp hmem with heq | hmem
  · exact hnames.1 (List.mem_map.mpr ⟨other, hother, heq⟩)
  · exact hnew other (List.mem_cons_of_mem _ hother) hmem

end Written

/-- A key is found in front of its member. -/
theorem nextKey_compactMembers (first : Bool) (key : String) (value : Json) (rest : Members) (tail : List Char) :
    nextKey first (compactMembers first ((key, value) :: rest) tail) =
      .ok (some ((key.toList.map Item.ofChar).flatMap Item.text ++ '"' ::
        (':' :: compactOnto value (compactMembers false rest tail)))) := by
  rw [compactMembers, escapeOnto_cons]
  cases first with
  | true => rfl
  | false => rfl

theorem skipColon_cons (tail : List Char) : skipColon (':' :: tail) = .ok tail := rfl

theorem nextKey_end (first : Bool) (tail : List Char) : nextKey first ('\x7d' :: tail) = .ok none := rfl

/-- A member whose key is a field of the record, for the first time, is read into that field. -/
theorem Record.readMembers_own (record : Record ρ) (extra : σ → String → Reader σ) (fuel : Nat)
    {first : Bool} {seen : List String} (value : ρ) (others : σ) {text named colon element left : List Char}
    {key : String} {field : Field ρ} {set : ρ → ρ} (hnext : nextKey first text = .ok (some named))
    (hkey : readString named = .ok (key, colon)) (hfound : record.field? key = some field) (hnew : key ∉ seen)
    (hcolon : skipColon colon = .ok element) (hread : field.decoder.read element = .ok (set, left)) :
    record.readMembers extra (fuel + 1) first seen value others text =
      record.readMembers extra fuel false (key :: seen) (set value) others left := by
  have hcontains : seen.contains key = false := by
    rw [← Bool.not_eq_true, List.contains_iff_mem]
    exact hnew
  rw [Record.readMembers, hnext]
  simp only [bind, Except.bind, hkey, hfound, hcontains, hcolon, hread]
  rw [if_neg Bool.false_ne_true]

/-- The induction is on the fields that are still to be read. -/
theorem Record.readMembers_written (record : Record ρ) (extra : σ → String → Reader σ) (others : σ)
    (rest : List Char) {written : List (Written ρ)} (hread : ∀ entry ∈ written, entry.ReadIn record)
    (hnames : (written.map fun entry => entry.field.name).Nodup) {fuel : Nat} (hfuel : written.length < fuel)
    (first : Bool) {seen : List String} (hseen : ∀ entry ∈ written, entry.field.name ∉ seen) (value : ρ) :
    record.readMembers extra fuel first seen value others
        (compactMembers first (written.map Written.member) ('\x7d' :: rest)) =
      .ok ((written.foldl (fun value entry => entry.set value) value, others,
        (written.map fun entry => entry.field.name).reverse ++ seen), '\x7d' :: rest) := by
  induction written generalizing fuel first seen value with
  | nil =>
    obtain ⟨fuel, rfl⟩ := Nat.exists_eq_succ_of_ne_zero (Nat.ne_of_gt hfuel)
    rw [List.map_nil, compactMembers, Record.readMembers, nextKey_end]
    rfl
  | cons entry written ih =>
    obtain ⟨fuel, rfl⟩ := Nat.exists_eq_succ_of_ne_zero (Nat.ne_of_gt (Nat.zero_lt_of_lt hfuel))
    have hlater := Written.new_of_cons hnames hseen
    rw [List.forall_mem_cons] at hread hseen
    rw [List.map_cons, List.nodup_cons] at hnames
    have hrest := ih hread.2 hnames.2 (Nat.lt_of_succ_lt_succ hfuel) false hlater (entry.set value)
    rw [List.map_cons, Written.member, record.readMembers_own extra fuel value others
      (nextKey_compactMembers first _ _ _ _) (readString_written _ _) hread.1.found hseen.1 (skipColon_cons _)
      (hread.1.reads _), hrest, List.map_cons, List.reverse_cons, List.append_assoc, List.singleton_append,
      List.foldl_cons]

theorem length_le_compactMembers (first : Bool) (members : Members) (tail : List Char) :
    members.length ≤ (compactMembers first members tail).length := by
  induction members generalizing first with
  | nil => exact Nat.zero_le _
  | cons member members ih =>
    obtain ⟨key, value⟩ := member
    obtain ⟨text, -, hvalue⟩ := exists_compactOnto value
    have hrest := ih false
    rw [compactMembers, hvalue, escapeOnto_cons]
    cases first <;> simp only [if_true, Bool.false_eq_true, if_false, List.length_cons, List.length_append] <;> omega

/-- No required field is missing where all of them were seen. -/
theorem Record.missing?_eq_none {record : Record ρ} {seen : List String}
    (h : ∀ field ∈ record.fields, field.required = true → field.name ∈ seen) : record.missing? seen = none := by
  rw [Record.missing?, Option.map_eq_none_iff, List.find?_eq_none]
  intro field hfield hboth
  rw [Bool.and_eq_true, Bool.not_eq_true', ← Bool.not_eq_true, List.contains_iff_mem] at hboth
  exact hboth.2 (h field hfield hboth.1)

/-- A record is read from its members, if the required ones are among them and none is there twice. -/
theorem Record.reads_written (record : Record ρ) {written : List (Written ρ)}
    (hread : ∀ entry ∈ written, entry.ReadIn record)
    (hnames : (written.map fun entry => entry.field.name).Nodup)
    (hrequired : ∀ field ∈ record.fields, field.required = true →
      field.name ∈ written.map fun entry => entry.field.name) :
    record.decoder.Reads (.object (written.map Written.member))
      (written.foldl (fun value entry => entry.set value) record.start) := by
  intro tail
  have hfuel := length_le_compactMembers true (written.map Written.member) ('\x7d' :: tail)
  rw [List.length_map] at hfuel
  have hmembers := record.readMembers_written (fun _ _ text => (skipValue text).map fun rest => ((), rest)) ()
    tail hread hnames (Nat.lt_succ_of_le hfuel) true (fun _ _ => List.not_mem_nil) record.start
  have hmissing : record.missing? ((written.map fun entry => entry.field.name).reverse ++ []) = none :=
    Record.missing?_eq_none fun field hfield hneeded =>
      List.mem_append_left _ (List.mem_reverse.mpr (hrequired field hfield hneeded))
  rw [compactOnto]
  change (settle closeObject (record.readMembers (fun _ _ text => (skipValue text).map fun rest => ((), rest))
    ((compactMembers true (written.map Written.member) ('\x7d' :: tail)).length + 1) true []
    record.start () (compactMembers true (written.map Written.member) ('\x7d' :: tail)) >>= _) >>= _) = _
  simp only [bind, Except.bind, hmembers, checkMissing, hmissing]
  rfl

/-! ### Sources of one kind -/

theorem Source.exists_eq_string {source : Source} {text : String} (h : source.value? = some (.string text)) :
    ∃ items, source = .string items ∧ Item.string? items = some text := by
  cases source with
  | string items => exact ⟨items, rfl, by simpa [value?] using h⟩
  | _ => simp [value?, ofInt, ofNat, ite_eq_iff] at h

theorem Source.eq_bool {source : Source} {value : Bool} (h : source.value? = some (.bool value)) :
    source = .bool value := by
  cases source with
  | bool found => simpa [value?] using h
  | _ => simp [value?, ofInt, ofNat, ite_eq_iff] at h

theorem skipBlanks_string (before : Blanks) (items : List Item) (rest : List Char) :
    skipBlanks (before.chars ++ ((Source.string items).text ++ rest)) =
      '"' :: (items.flatMap Item.text ++ '"' :: rest) := by
  rw [skipBlanks_append, skipBlanks_source, Source.text, Item.quoted, List.cons_append, List.append_assoc,
    List.singleton_append]

/-- Only null begins with its first letter. -/
theorem Source.exists_text_cons_ne_n {source : Source} {value : Json} (h : source.value? = some value)
    (hvalue : value ≠ .null) : ∃ c rest, source.text = c :: rest ∧ c ≠ 'n' := by
  cases source with
  | null => exact absurd (Option.some.inj h).symm hvalue
  | bool value => cases value <;> exact ⟨_, _, rfl, by decide⟩
  | integer n fits =>
    obtain ⟨d, digits, hdigits, hd⟩ := exists_toDigits_cons n.natAbs
    rw [Source.text, hdigits]
    split
    · exact ⟨_, _, rfl, by decide⟩
    · refine ⟨d, digits, rfl, ?_⟩
      rintro rfl
      exact absurd hd (by decide)
  | string items => exact ⟨_, _, rfl, by decide⟩
  | array inner elements => exact ⟨_, _, rfl, by decide⟩
  | object inner fields => exact ⟨_, _, rfl, by decide⟩

/-! ### Decoders -/

/-- A decoder takes a value out of JSON that is at hand, and out of every text that stands for it. -/
structure Decoder.Decodes (decoder : Decoder α) (json : Json) (value : α) : Prop where
  take : decoder.take json = .ok value
  read (before : Blanks) {source : Source} (hsource : source.value? = some json) (rest : List Char) :
    decoder.read (before.chars ++ (source.text ++ rest)) = .ok (value, rest)

namespace Decoder

variable {decoder : Decoder α} {json : Json} {value : α}

theorem Decodes.map (h : decoder.Decodes json value) (f : α → β) : (decoder.map f).Decodes json (f value) where
  take := congrArg (Except.map f) h.take
  read before _ hsource rest := congrArg (Except.map (Prod.map f id)) (h.read before hsource rest)

theorem decodes_string (text : String) : string.Decodes (.string text) text where
  take := rfl
  read before source hsource rest := by
    obtain ⟨items, rfl, hitems⟩ := source.exists_eq_string hsource
    simp only [string, skipBlanks_string]
    exact readString_items hitems rest

theorem decodes_bool (value : Bool) : bool.Decodes (.bool value) value where
  take := rfl
  read before source hsource rest := by
    obtain rfl := source.eq_bool hsource
    simp only [bool, skipBlanks_append, skipBlanks_source]
    cases value <;> rfl

theorem decodes_choice {names : List String} {ofName : String → Option α} {name : String}
    (h : ofName name = some value) : (choice names ofName).Decodes (.string name) value where
  take := by simp [choice, h]
  read before source hsource rest := by
    obtain ⟨items, rfl, hitems⟩ := source.exists_eq_string hsource
    simp only [choice, skipBlanks_string, readString_items hitems, bind, Except.bind, h]

/-- What is not null is taken by the decoder inside. -/
theorem Decodes.optional (h : decoder.Decodes json value) (hjson : json ≠ .null) :
    (optional decoder).Decodes json (some value) where
  take := by
    simp only [Decoder.optional, h.take]
    rfl
  read before source hsource rest := by
    obtain ⟨c, more, htext, hc⟩ := source.exists_text_cons_ne_n hsource hjson
    have hskip : skipBlanks (before.chars ++ (source.text ++ rest)) = c :: (more ++ rest) := by
      rw [skipBlanks_append, skipBlanks_source, htext, List.cons_append]
    have hread : decoder.read (c :: (more ++ rest)) = .ok (value, rest) := by
      rw [← List.cons_append, ← htext]
      exact h.read .none hsource rest
    simp only [Decoder.optional, hskip]
    split
    case h_1 heq => exact absurd (List.cons.inj heq).1 hc
    case h_2 =>
      rw [hread]
      rfl

/-- What is taken out of every text for a plain value is taken out of what is written for it. -/
theorem Decodes.reads (h : decoder.Decodes json value) (hplain : json.IsPlain) : decoder.Reads json value := by
  obtain ⟨source, hsource, -⟩ := hplain.exists_writes
  intro tail
  rw [hsource.written]
  exact h.read .none hsource.means tail

end Decoder

/-! ### Records -/

/-- Whether a field is one of the record's and is taken out of what is written for it. -/
structure Written.DecodedIn (written : Written ρ) (record : Record ρ) : Prop where
  found : record.field? written.field.name = some written.field
  decodes : written.field.decoder.Decodes written.json written.set

theorem Written.decodedIn_of {record : Record ρ} {name : String} {required : Bool} {decoder : Decoder α}
    {set : α → ρ → ρ} {json : Json} {value : α}
    (hfound : record.field? name = some ⟨name, required, decoder.map set⟩)
    (hdecodes : decoder.Decodes json value) : (of name required decoder set json value).DecodedIn record :=
  ⟨hfound, hdecodes.map set⟩

theorem Written.DecodedIn.readIn {written : Written ρ} {record : Record ρ} (h : written.DecodedIn record)
    (hplain : written.json.IsPlain) : written.ReadIn record :=
  ⟨h.found, h.decodes.reads hplain⟩

/-- Fields of a record whose members name each once and none of the required ones is left out. -/
structure Record.Fits (record : Record ρ) (written : List (Written ρ)) : Prop where
  decoded : ∀ entry ∈ written, entry.DecodedIn record
  names : (written.map fun entry => entry.field.name).Nodup
  required : ∀ field ∈ record.fields, field.required = true →
    field.name ∈ written.map fun entry => entry.field.name

namespace Record

/-! ### Taking records -/

/-- Takes one more member into its field, if the key is that of a field. -/
def takeMember (record : Record ρ) (state : ρ × List String) (member : String × Json) :
    Except String (ρ × List String) :=
  match record.field? member.1 with
  | none => .ok state
  | some field =>
    if state.2.contains member.1 then .error (duplicateField member.1)
    else (field.decoder.take member.2).map fun set => (set state.1, member.1 :: state.2)

theorem takeMembers_eq (record : Record ρ) (members : Members) :
    record.takeMembers members = (do
      let (value, seen) ← members.foldlM record.takeMember (record.start, [])
      record.checkMissing seen
      return value) := rfl

theorem takeMember_own {record : Record ρ} {entry : Written ρ} (hentry : entry.DecodedIn record) (value : ρ)
    {seen : List String} (hnew : entry.field.name ∉ seen) :
    record.takeMember (value, seen) entry.member = .ok (entry.set value, entry.field.name :: seen) := by
  have hcontains : seen.contains entry.field.name = false := by
    rw [← Bool.not_eq_true, List.contains_iff_mem]
    exact hnew
  simp only [takeMember, Written.member, hentry.found, hentry.decodes.take, hcontains]
  rfl

/-- Members with other keys are passed over. -/
theorem foldlM_takeMember_others {record : Record ρ} {others : Members}
    (hothers : ∀ member ∈ others, record.field? member.1 = none) (state : ρ × List String) :
    others.foldlM record.takeMember state = .ok state := by
  induction others with
  | nil => rfl
  | cons member others ih =>
    rw [List.forall_mem_cons] at hothers
    have hmember : record.takeMember state member = .ok state := by
      rw [takeMember, hothers.1]
    rw [List.foldlM_cons, hmember]
    exact ih hothers.2

theorem foldlM_takeMember_written {record : Record ρ} {written : List (Written ρ)}
    (hdecoded : ∀ entry ∈ written, entry.DecodedIn record)
    (hnames : (written.map fun entry => entry.field.name).Nodup) {seen : List String}
    (hnew : ∀ entry ∈ written, entry.field.name ∉ seen) (value : ρ) :
    (written.map Written.member).foldlM record.takeMember (value, seen) =
      .ok (written.foldl (fun value entry => entry.set value) value,
        (written.map fun entry => entry.field.name).reverse ++ seen) := by
  induction written generalizing seen value with
  | nil => rfl
  | cons entry written ih =>
    have hlater := Written.new_of_cons hnames hnew
    rw [List.forall_mem_cons] at hdecoded hnew
    rw [List.map_cons, List.nodup_cons] at hnames
    rw [List.map_cons, List.foldlM_cons, takeMember_own hdecoded.1 value hnew.1]
    simp only [bind, Except.bind]
    rw [ih hdecoded.2 hnames.2 hlater, List.map_cons, List.reverse_cons, List.append_assoc,
      List.singleton_append, List.foldl_cons]

/-- No required field is missing where all that were written were seen. -/
theorem Fits.checkMissing {record : Record ρ} {written : List (Written ρ)} (h : record.Fits written) :
    record.checkMissing ((written.map fun entry => entry.field.name).reverse ++ []) = .ok () := by
  have hmissing : record.missing? ((written.map fun entry => entry.field.name).reverse ++ []) = none :=
    missing?_eq_none fun field hfield hneeded =>
      List.mem_append_left _ (List.mem_reverse.mpr (h.required field hfield hneeded))
  rw [Record.checkMissing, hmissing]

/-- A record is taken from its members, whatever stands behind them under other keys. -/
theorem Fits.takeMembers {record : Record ρ} {written : List (Written ρ)} (h : record.Fits written)
    {others : Members} (hothers : ∀ member ∈ others, record.field? member.1 = none) :
    record.takeMembers (written.map Written.member ++ others) =
      .ok (written.foldl (fun value entry => entry.set value) record.start) := by
  rw [takeMembers_eq, List.foldlM_append,
    foldlM_takeMember_written h.decoded h.names (fun _ _ => List.not_mem_nil) record.start]
  simp only [bind, Except.bind, foldlM_takeMember_others hothers, h.checkMissing]
  rfl

end Record

/-! ### Reading the members of an object -/

theorem Fields.exists_eq_more {fields : Fields} {name : String} {json : Json} {others : Members}
    (h : fields.given? = some ((name, json) :: others)) :
    ∃ before key beforeColon afterColon value after later,
      fields = .more before key beforeColon afterColon value after later ∧ Item.string? key = some name ∧
        value.value? = some json ∧ later.given? = some others := by
  cases fields with
  | none => cases h
  | more before key beforeColon afterColon value after later =>
    obtain ⟨name', hname, json', hjson, others', hothers, heq⟩ :
        ∃ name', Item.string? key = some name' ∧ ∃ json', value.value? = some json' ∧
          ∃ others', later.given? = some others' ∧ (name', json') :: others' = (name, json) :: others := by
      simpa [Fields.given?, Option.bind_eq_some_iff] using h
    cases heq
    exact ⟨before, key, beforeColon, afterColon, value, after, later, rfl, hname, hjson, hothers⟩

theorem Fields.eq_none {fields : Fields} (h : fields.given? = some []) : fields = .none := by
  cases fields with
  | none => rfl
  | more before key beforeColon afterColon value after later =>
    simp [Fields.given?, Option.bind_eq_some_iff] at h

/-- Reading has come to these fields, up to blanks, and has fuel for all of them. -/
structure Fields.LeftIn (fields : Fields) (first : Bool) (rest text : List Char) (fuel : Nat) : Prop where
  fuel : (fields.text first).length < fuel
  text : skipBlanks text = skipBlanks (fields.text first ++ '\x7d' :: rest)

/-- Past a member, the others are left. -/
theorem Fields.LeftIn.exists_later {before : Blanks} {key : List Item} {beforeColon afterColon : Blanks}
    {value : Source} {after : Blanks} {later : Fields} {first : Bool} {rest text : List Char} {fuel : Nat}
    (h : (Fields.more before key beforeColon afterColon value after later).LeftIn first rest text fuel) :
    ∃ less, fuel = less + 1 ∧
      later.LeftIn false rest (after.chars ++ (later.text false ++ '\x7d' :: rest)) less := by
  have hfuel := h.fuel
  simp only [Fields.text, List.length_append, List.length_singleton] at hfuel
  obtain ⟨less, rfl⟩ : ∃ less, fuel = less + 1 := ⟨fuel - 1, by omega⟩
  exact ⟨less, rfl, by omega, skipBlanks_append after _⟩

theorem skipBlanks_object (before inner : Blanks) (fields : Fields) (rest : List Char) :
    skipBlanks (before.chars ++ ((Source.object inner fields).text ++ rest)) =
      '\x7b' :: (inner.chars ++ (fields.text true ++ '\x7d' :: rest)) := by
  rw [skipBlanks_append, skipBlanks_source, Source.text, List.cons_append, List.append_assoc, List.append_assoc,
    List.singleton_append]

/-- At the start of an object all its fields are left. -/
theorem Fields.leftIn_object (inner : Blanks) (fields : Fields) (rest : List Char) :
    fields.LeftIn true rest (inner.chars ++ (fields.text true ++ '\x7d' :: rest))
      ((inner.chars ++ (fields.text true ++ '\x7d' :: rest)).length + 1) where
  fuel := by
    simp only [List.length_append, List.length_cons]
    omega
  text := skipBlanks_append inner _

theorem endObject_cons (rest : List Char) : endObject ('\x7d' :: rest) = .ok rest := rfl

/-- A reader collects a member from every text that stands for its value. -/
def Collects (extra : σ → String → Reader σ) (add : σ → String × Json → σ) (member : String × Json) : Prop :=
  ∀ (collected : σ) (before : Blanks) {source : Source}, source.value? = some member.2 →
    ∀ {rest : List Char}, Ends rest →
      extra collected member.1 (before.chars ++ (source.text ++ rest)) = .ok (add collected member, rest)

namespace Record

variable {record : Record ρ} {extra : σ → String → Reader σ} {add : σ → String × Json → σ}

/-- Members that are no fields of the record are collected. -/
theorem readMembers_others {others : Members} (hothers : ∀ member ∈ others, record.field? member.1 = none)
    (hcollects : ∀ member ∈ others, Collects extra add member) {fields : Fields}
    (hgiven : fields.given? = some others) {first : Bool} {rest text : List Char} {fuel : Nat}
    (hleft : fields.LeftIn first rest text fuel) (seen : List String) (value : ρ) (collected : σ) :
    record.readMembers extra fuel first seen value collected text =
      .ok ((value, others.foldl add collected, seen), '\x7d' :: rest) := by
  induction others generalizing fields first text fuel collected with
  | nil =>
    obtain rfl := Fields.eq_none hgiven
    obtain ⟨less, rfl⟩ := Nat.exists_eq_succ_of_ne_zero (Nat.ne_of_gt (Nat.zero_lt_of_lt hleft.fuel))
    have hskip : skipBlanks text = '\x7d' :: rest := hleft.text.trans (skipBlanks_cons (by decide) rest)
    have hend : nextKey first text = .ok none := by
      rw [nextKey, hskip]
      rfl
    rw [readMembers, hend]
    simp only [bind, Except.bind, hskip, List.foldl_nil]
  | cons member others ih =>
    rw [List.forall_mem_cons] at hothers hcollects
    obtain ⟨before, key, beforeColon, afterColon, source, after, later, rfl, hkey, hsource, hlater⟩ :=
      Fields.exists_eq_more hgiven
    obtain ⟨less, rfl, hleftLater⟩ := hleft.exists_later
    have hends : Ends (after.chars ++ (later.text false ++ '\x7d' :: rest)) :=
      ends_blanks after (later.ends (ends_cons (by decide) rest))
    rw [readMembers, nextKey_more first before key beforeColon afterColon source after later hleft.text]
    simp only [bind, Except.bind, readString_items hkey, hothers.1, skipColon_blanks,
      hcollects.1 collected afterColon hsource hends]
    exact ih hothers.2 hcollects.2 hlater hleftLater (add collected member)

/-- The members of an object are read, fields of the record first. -/
theorem readMembers_fields {written : List (Written ρ)} (hdecoded : ∀ entry ∈ written, entry.DecodedIn record)
    (hnames : (written.map fun entry => entry.field.name).Nodup) {seen : List String}
    (hnew : ∀ entry ∈ written, entry.field.name ∉ seen) {others : Members}
    (hothers : ∀ member ∈ others, record.field? member.1 = none)
    (hcollects : ∀ member ∈ others, Collects extra add member) {fields : Fields}
    (hgiven : fields.given? = some (written.map Written.member ++ others)) {first : Bool} {rest text : List Char}
    {fuel : Nat} (hleft : fields.LeftIn first rest text fuel) (value : ρ) (collected : σ) :
    record.readMembers extra fuel first seen value collected text =
      .ok ((written.foldl (fun value entry => entry.set value) value, others.foldl add collected,
        (written.map fun entry => entry.field.name).reverse ++ seen), '\x7d' :: rest) := by
  induction written generalizing fields first text fuel seen value with
  | nil => exact readMembers_others hothers hcollects hgiven hleft seen value collected
  | cons entry written ih =>
    have hlaterNew := Written.new_of_cons hnames hnew
    rw [List.forall_mem_cons] at hdecoded hnew
    rw [List.map_cons, List.nodup_cons] at hnames
    obtain ⟨before, key, beforeColon, afterColon, source, after, later, rfl, hkey, hsource, hlater⟩ :=
      Fields.exists_eq_more hgiven
    obtain ⟨less, rfl, hleftLater⟩ := hleft.exists_later
    rw [record.readMembers_own extra less value collected
      (nextKey_more first before key beforeColon afterColon source after later hleft.text)
      (readString_items hkey _) hdecoded.1.found hnew.1 (skipColon_blanks beforeColon _)
      (hdecoded.1.decodes.read afterColon hsource _),
      ih hdecoded.2 hnames.2 hlaterNew hlater hleftLater, List.map_cons, List.reverse_cons, List.append_assoc,
      List.singleton_append, List.foldl_cons]

/-- The text of an object is read as the record whose members it gives. -/
theorem Fits.read {written : List (Written ρ)} (h : record.Fits written) (before inner : Blanks) {fields : Fields}
    (hgiven : fields.given? = some (written.map Written.member)) (rest : List Char) :
    record.decoder.read (before.chars ++ ((Source.object inner fields).text ++ rest)) =
      .ok (written.foldl (fun value entry => entry.set value) record.start, rest) := by
  have hothers : ∀ member ∈ ([] : Members), record.field? member.1 = none := nofun
  have hcollects : ∀ member ∈ ([] : Members),
      Collects (fun _ _ text => (skipValue text).map fun rest => ((), rest)) (fun _ _ => ()) member := nofun
  rw [← List.append_nil (written.map Written.member)] at hgiven
  have hread := readMembers_fields h.decoded h.names (fun _ _ => List.not_mem_nil) hothers hcollects hgiven
    (Fields.leftIn_object inner fields rest) record.start ()
  simp only [decoder, skipBlanks_object, hread, bind, Except.bind, h.checkMissing, orUnsettled, settle,
    Except.mapError, endObject_cons]

/-! ### Two records in one object -/

/-- The members that a flattened record keeps for the inner one, in front of a further one. -/
def keepMember (others : Members) (key : String) : Reader Members := fun text => do
  let (value, text) ← readValue (fun members key value => members ++ [(key, value)]) (text.length + 1)
    (depthLimit - 1) text
  .ok (others ++ [(key, value)], text)

theorem collects_keepMember {member : String × Json} (hscalar : member.2.IsScalar) :
    Collects keepMember (fun others member => others ++ [member]) member := by
  intro others before source hsource rest hrest
  rw [keepMember, readValue_blanks, source.readValue_scalar _ hsource hscalar _ _ hrest]
  rfl

theorem foldl_keep (others kept : Members) :
    others.foldl (fun others member => others ++ [member]) kept = kept ++ others := by
  induction others generalizing kept with
  | nil => rw [List.foldl_nil, List.append_nil]
  | cons member others ih => rw [List.foldl_cons, ih, List.append_assoc, List.singleton_append]

/-- Fields of an outer record and of one that is flattened into it. -/
structure FitsFlattened (outer : Record ρ) (inner : Record σ) (written : List (Written ρ))
    (within : List (Written σ)) : Prop where
  own : outer.Fits written
  kept : inner.Fits within
  apart : ∀ member ∈ within.map Written.member, outer.field? member.1 = none
  scalar : ∀ member ∈ within.map Written.member, member.2.IsScalar

variable {outer : Record ρ} {inner : Record σ} {written : List (Written ρ)} {within : List (Written σ)}

theorem Fits.takeMembers_self (h : inner.Fits within) :
    inner.takeMembers (within.map Written.member) =
      .ok (within.foldl (fun value entry => entry.set value) inner.start) := by
  have hothers : ∀ member ∈ ([] : Members), inner.field? member.1 = none := nofun
  have htake := h.takeMembers hothers
  rwa [List.append_nil] at htake

theorem FitsFlattened.take (h : FitsFlattened outer inner written within) :
    (outer.flattened inner).take (.object (written.map Written.member ++ within.map Written.member)) =
      .ok (written.foldl (fun value entry => entry.set value) outer.start,
        within.foldl (fun value entry => entry.set value) inner.start) := by
  have hown : (written.map Written.member).filter (fun member => (outer.field? member.1).isNone) = [] := by
    rw [List.filter_eq_nil_iff]
    intro member hmember
    obtain ⟨entry, hentry, rfl⟩ := List.mem_map.mp hmember
    simp [Written.member, (h.own.decoded entry hentry).found]
  have hwithin : (within.map Written.member).filter (fun member => (outer.field? member.1).isNone) =
      within.map Written.member := by
    rw [List.filter_eq_self]
    intro member hmember
    rw [h.apart member hmember]
    rfl
  simp only [flattened, h.own.takeMembers h.apart, List.filter_append, hown, hwithin, List.nil_append,
    h.kept.takeMembers_self, bind, Except.bind]

theorem FitsFlattened.read (h : FitsFlattened outer inner written within) (before inside : Blanks)
    {fields : Fields} (hgiven : fields.given? = some (written.map Written.member ++ within.map Written.member))
    (rest : List Char) :
    (outer.flattened inner).read (before.chars ++ ((Source.object inside fields).text ++ rest)) =
      .ok ((written.foldl (fun value entry => entry.set value) outer.start,
        within.foldl (fun value entry => entry.set value) inner.start), rest) := by
  have hread := readMembers_fields h.own.decoded h.own.names (fun _ _ => List.not_mem_nil) h.apart
    (fun member hmember => collects_keepMember (h.scalar member hmember)) hgiven
    (Fields.leftIn_object inside fields rest) outer.start []
  rw [foldl_keep, List.nil_append] at hread
  unfold keepMember at hread
  simp only [bind, Except.bind] at hread
  simp only [flattened, skipBlanks_object, bind, Except.bind, hread, h.own.checkMissing, h.kept.takeMembers_self,
    orUnsettled, settle, Except.mapError, endObject_cons]

end Record

/-! ### Whole documents -/

/-- A document is decoded if its source is, wherever it stands. -/
theorem Decoder.parse_document {decoder : Decoder α} {document : Document} {value : α}
    (h : ∀ rest, decoder.read (document.before.chars ++ (document.source.text ++ rest)) = .ok (value, rest)) :
    decoder.parse document.text = .ok value := by
  have hread := h document.after.chars
  rw [← List.append_assoc] at hread
  rw [parse, readAll, Document.text, String.toList_ofList, hread]
  simp only [readEnd_blanks]

end Minifier.Json
