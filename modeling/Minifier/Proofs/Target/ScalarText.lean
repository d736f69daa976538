import Mathlib.Data.List.Chain
import Minifier.Json.Parser
import Minifier.Proofs.Target.CommandText

/-!
Scalars of YAML that stand on the line of their key. A plain scalar ends before a comment and must not look like
another key; between double quotes a backslash begins an escape. Texts that break these rules are refused.
-/

namespace Minifier.Yaml

/-! ### Values of keys -/

def isWhite (c : Char) : Bool := c == ' ' || c == '\t'

/-- What stands behind a key on its line, if the line has no other key. -/
def valueOf? (key : String) (line : List Char) : Option (List Char) := do
  let behind ← (line.dropWhile (· == ' ')).dropPrefix? (key.toList ++ [':'])
  if behind.head?.all isWhite then some (behind.dropWhile isWhite) else none

/-- What stands behind a key, for every line of that key. -/
def values (key text : String) : List (List Char) := (Text.cutLines text.toList).filterMap (valueOf? key)

example : values "a" "a: b\n  c: d\n  a:  e f\nab: g\n" = [['b'], ['e', ' ', 'f']] := by decide

/-! ### Plain scalars -/

/-- A character that may stand in a text as it is, apart from the ends of lines and the byte order mark. -/
def isPrintable (c : Char) : Bool :=
  let n := c.toNat
  n == 0x09 || (0x20 ≤ n && n ≤ 0x7E) || n == 0x85 || (0xA0 ≤ n && n ≤ 0xFFFD && n != 0xFEFF) || 0x10000 ≤ n

/-- Whether something else than a plain scalar begins with a character, or may begin with it. -/
def isIndicator (c : Char) : Bool :=
  ['-', '?', ':', ',', '[', ']', '\x7b', '\x7d', '#', '&', '*', '!', '|', '>', '\'', '"', '%', '@', '\x60'].contains c

/-- The characters of a plain scalar, `white` telling whether white space stands in front. -/
def plainFrom : (white : Bool) → List Char → Option (List Char)
  | _, [] => some []
  | white, c :: rest =>
    if white && c == '#' then some []
    else if c == ':' && rest.head?.all isWhite then none
    else if isPrintable c then (plainFrom (isWhite c) rest).map (c :: ·)
    else none

/-- A plain scalar on one line. -/
def plain? : List Char → Option String
  | [] => none
  | c :: rest =>
    if isWhite c || isIndicator c then none
    else (plainFrom false (c :: rest)).map fun scalar => String.ofList (scalar.rdropWhile isWhite)

example : plain? "a b:c#d  # e".toList = some "a b:c#d" := by decide

example : plain? "a b: c".toList = none := by decide

/-- Between two characters of a plain scalar neither a comment nor a value begins. -/
def GoesOn (c d : Char) : Prop := ¬ (isWhite c = true ∧ d = '#') ∧ ¬ (c = ':' ∧ isWhite d = true)

/-- A text that a plain scalar may hold, between characters that are neither white space nor indicators. -/
def IsPlain (text : List Char) : Prop := (∀ c ∈ text, isPrintable c = true) ∧ text.IsChain GoesOn

/-- A character that begins neither a comment nor a value wherever it stands. -/
def isInert (c : Char) : Bool := isPrintable c && c != '#' && c != ':'

theorem isPlain_of_isInert {text : List Char} (h : text.all isInert = true) : IsPlain text := by
  simp only [List.all_eq_true, isInert, Bool.and_eq_true, bne_iff_ne, ne_eq] at h
  refine ⟨fun c hc => (h c hc).1.1, (List.pairwise_of_forall_mem_list ?_).isChain⟩
  exact fun c hc d hd => ⟨fun hcomment => (h d hd).1.2 hcomment.2, fun hvalue => (h c hc).2 hvalue.1⟩

/-- A character next to which nothing begins. -/
def isNeutral (c : Char) : Bool := !(isWhite c || c == '#' || c == ':')

theorem goesOn_of_isNeutral {c d : Char} (h : isNeutral c = true ∨ isNeutral d = true) : GoesOn c d := by
  constructor
  · rintro ⟨hwhite, rfl⟩
    rcases h with h | h
    · simp [isNeutral, hwhite] at h
    · exact absurd h (by decide)
  · rintro ⟨rfl, hwhite⟩
    rcases h with h | h
    · exact absurd h (by decide)
    · simp [isNeutral, hwhite] at h

theorem isPlain_append {text more : List Char} :
    IsPlain (text ++ more) ↔
      IsPlain text ∧ IsPlain more ∧ ∀ c ∈ text.getLast?, ∀ d ∈ more.head?, GoesOn c d := by
  rw [IsPlain, IsPlain, IsPlain, List.forall_mem_append, List.isChain_append]
  tauto

/-- Next to a neutral character, the parts of a text are plain just if the text is. -/
theorem isPlain_append_of_isNeutral {text more : List Char}
    (h : text.getLast?.any isNeutral = true ∨ more.head?.any isNeutral = true) :
    IsPlain (text ++ more) ↔ IsPlain text ∧ IsPlain more := by
  rw [isPlain_append, and_congr_right_iff]
  refine fun _ => and_iff_left fun c hc d hd => goesOn_of_isNeutral ?_
  rwa [Option.mem_def.mp hc, Option.mem_def.mp hd, Option.any_some, Option.any_some] at h

theorem prefix_of_plainFrom {white : Bool} {text scalar : List Char} (h : plainFrom white text = some scalar) :
    scalar <+: text := by
  induction text generalizing white scalar with
  | nil =>
    obtain rfl := Option.some.inj h
    exact List.prefix_refl _
  | cons c text ih =>
    rw [plainFrom] at h
    split_ifs at h
    · obtain rfl := Option.some.inj h
      exact List.nil_prefix
    · obtain ⟨rest, hrest, rfl⟩ := Option.map_eq_some_iff.mp h
      exact List.cons_prefix_cons.mpr ⟨rfl, ih hrest⟩

theorem isPlain_cons {c : Char} {text : List Char} :
    IsPlain (c :: text) ↔ isPrintable c = true ∧ (∀ d ∈ text.head?, GoesOn c d) ∧ IsPlain text := by
  rw [IsPlain, IsPlain, List.forall_mem_cons, List.isChain_cons]
  exact ⟨fun ⟨⟨hc, hall⟩, hfirst, hchain⟩ => ⟨hc, hfirst, hall, hchain⟩,
    fun ⟨hc, hfirst, hall, hchain⟩ => ⟨⟨hc, hall⟩, hfirst, hchain⟩⟩

/-- A text is a plain scalar as a whole if no comment and no value begins in it. The induction is on the text, with the
character in front. -/
theorem plainFrom_eq_self_iff {white : Bool} {text : List Char} :
    plainFrom white text = some text ↔
      IsPlain text ∧ ¬ (white = true ∧ text.head? = some '#') ∧ text.getLast? ≠ some ':' := by
  induction text generalizing white with
  | nil => simp [plainFrom, IsPlain]
  | cons c text ih =>
    rw [plainFrom, isPlain_cons]
    split_ifs with hcomment hkey hprintable
    case pos =>
      have hhash : white = true ∧ c = '#' := by simpa using hcomment
      simp [hhash]
    case pos =>
      have hcolon : c = ':' ∧ text.head?.all isWhite = true := by simpa using hkey
      refine iff_of_false nofun ?_
      rintro ⟨⟨-, hfirst, -⟩, -, hlast⟩
      cases text with
      | nil => exact hlast (by rw [hcolon.1]; rfl)
      | cons d text => exact (hfirst d rfl).2 hcolon
    case pos =>
      have hmap : (plainFrom (isWhite c) text).map (c :: ·) = some (c :: text) ↔
          plainFrom (isWhite c) text = some text := by simp
      have hstart : ¬ (white = true ∧ (c :: text).head? = some '#') := by simpa using hcomment
      rw [hmap, ih, and_iff_right hprintable, and_iff_right hstart]
      cases text with
      | nil =>
        have hcolon : c ≠ ':' := by simpa using hkey
        simp [hcolon]
      | cons d text =>
        have hcolon : ¬ (c = ':' ∧ isWhite d = true) := by simpa using hkey
        simp only [List.head?_cons, Option.mem_some_iff, forall_eq', Option.some.injEq, List.getLast?_cons_cons, GoesOn,
          and_iff_left hcolon]
        tauto
    case neg => simp [hprintable]

/-- A text is read as a plain scalar as a whole, if its first and last characters allow for that, just if neither a
comment nor a value begins in it. -/
theorem plain?_eq_self_iff {c : Char} {rest : List Char} (hfirst : isWhite c = false ∧ isIndicator c = false)
    (hlast : (c :: rest).getLast?.any (fun d => isWhite d || d == ':') = false) :
    plain? (c :: rest) = some (String.ofList (c :: rest)) ↔ IsPlain (c :: rest) := by
  have hend : (c :: rest).rdropWhile isWhite = c :: rest := by
    rw [List.rdropWhile_eq_self_iff]
    intro hne
    rw [List.getLast?_eq_some_getLast hne, Option.any_some, Bool.or_eq_false_iff] at hlast
    exact Bool.eq_false_iff.mp hlast.1
  have hcolon : (c :: rest).getLast? ≠ some ':' := by
    intro heq
    simp [heq] at hlast
  have hread : plainFrom false (c :: rest) = some (c :: rest) ↔ IsPlain (c :: rest) := by
    rw [plainFrom_eq_self_iff, and_iff_left hcolon, and_iff_left (by simp)]
  rw [plain?, hfirst.1, hfirst.2, ← hread]
  simp only [Bool.or_self, Bool.false_eq_true, if_false, Option.map_eq_some_iff]
  constructor
  · rintro ⟨scalar, hscalar, heq⟩
    -- What is read is a beginning of the text, so without its white space it is the whole text only if it was before.
    have hprefix := prefix_of_plainFrom hscalar
    have hshort := List.rdropWhile_prefix isWhite scalar
    rw [String.ofList_injective heq] at hshort
    rw [hscalar, hprefix.eq_of_length_le hshort.length_le]
  · exact fun h => ⟨_, h, by rw [hend]⟩

/-! ### Scalars in double quotes -/

/-- What a character means behind a backslash. -/
def letter? (c : Char) : Option Char :=
  [('0', '\x00'), ('a', '\x07'), ('b', '\x08'), ('t', '\t'), ('\t', '\t'), ('n', '\n'), ('v', '\x0b'), ('f', '\x0c'),
    ('r', '\r'), ('e', '\x1b'), (' ', ' '), ('"', '"'), ('/', '/'), ('\\', '\\'), ('N', '\u0085'), ('_', '\u00a0'),
    ('L', '\u2028'), ('P', '\u2029')].lookup c

/-- How many digits of a number stand behind a backslash and a character. -/
def digits? (c : Char) : Option Nat := [('x', 2), ('u', 4), ('U', 8)].lookup c

/-- The character of a number in hexadecimal digits. -/
def ofDigits? (digits : List Char) : Option Char := do
  let values ← digits.mapM Json.hexValue?
  let n := values.foldl (fun n value => 16 * n + value) 0
  if n.isValidChar then some (Char.ofNat n) else none

/-- What stands for a character behind a backslash, and how many characters that takes. -/
def escape? : List Char → Option (Char × Nat)
  | [] => none
  | c :: rest =>
    match letter? c, digits? c with
    | some meant, _ => some (meant, 1)
    | none, some count =>
      if count ≤ rest.length then (ofDigits? (rest.take count)).map fun meant => (meant, count + 1) else none
    | none, none => none

/-- What a scalar says up to its closing quote, and what stands behind that. The next `skip` characters belong to the
last escape. -/
def quotedFrom : (skip : Nat) → List Char → Option (List Char × List Char)
  | _, [] => none
  | skip + 1, _ :: rest => quotedFrom skip rest
  | 0, c :: rest =>
    if c = '"' then some ([], rest)
    else if c = '\\' then do
      let (meant, count) ← escape? rest
      let (value, behind) ← quotedFrom count rest
      return (meant :: value, behind)
    else if c.toNat < 32 ∧ c ≠ '\t' then none
    else (quotedFrom 0 rest).map fun (value, behind) => (c :: value, behind)

/-- Whether nothing stands up to the end of a line, or a comment that has white space in front. -/
def endsLine (text : List Char) : Bool :=
  text.head?.all isWhite && (text.dropWhile isWhite).head?.all (· == '#')

/-- A scalar in double quotes on one line. -/
def quoted? : List Char → Option String
  | '"' :: rest =>
    match quotedFrom 0 rest with
    | some (value, behind) => if endsLine behind then some (String.ofList value) else none
    | none => none
  | _ => none

example : quoted? "\"a\\\\b\\x41\\\"\\n\" # c".toList = some "a\\bA\"\n" := by decide

/-- A character that stands for itself between double quotes. -/
def IsQuotable (c : Char) : Prop := c ≠ '"' ∧ c ≠ '\\' ∧ (32 ≤ c.toNat ∨ c = '\t')

theorem pos_of_escape? {text : List Char} {meant : Char} {count : Nat} (h : escape? text = some (meant, count)) :
    0 < count := by
  cases text with
  | nil => exact absurd h nofun
  | cons c rest =>
    rw [escape?] at h
    split at h
    case h_1 =>
      obtain ⟨-, rfl⟩ := Prod.mk.inj (Option.some.inj h)
      exact Nat.one_pos
    case h_2 digits _ _ =>
      split_ifs at h
      obtain ⟨_, -, heq⟩ := Option.map_eq_some_iff.mp h
      obtain ⟨-, rfl⟩ := Prod.mk.inj heq
      exact Nat.succ_pos digits
    case h_3 => exact absurd h nofun

/-- Every character that is meant takes at least one, and the closing quote takes one more. -/
theorem length_lt_of_quotedFrom {skip : Nat} {text value behind : List Char}
    (h : quotedFrom skip text = some (value, behind)) : skip + value.length < text.length := by
  induction text generalizing skip value behind with
  | nil => cases skip <;> exact absurd h nofun
  | cons c rest ih =>
    rw [List.length_cons]
    cases skip with
    | succ skip =>
      have hlt := ih h
      omega
    | zero =>
      rw [quotedFrom] at h
      split_ifs at h
      · obtain ⟨rfl, -⟩ := Prod.mk.inj (Option.some.inj h)
        exact Nat.succ_pos _
      · obtain ⟨⟨meant, count⟩, hescape, h⟩ := Option.bind_eq_some_iff.mp h
        obtain ⟨⟨more, left⟩, hmore, heq⟩ := Option.bind_eq_some_iff.mp h
        obtain ⟨rfl, -⟩ := Prod.mk.inj (Option.some.inj heq)
        have hpos := pos_of_escape? hescape
        have hlt := ih hmore
        simp only [List.length_cons]
        omega
      · obtain ⟨⟨more, left⟩, hmore, heq⟩ := Option.map_eq_some_iff.mp h
        obtain ⟨rfl, -⟩ := Prod.mk.inj heq
        have hlt := ih hmore
        simp only [List.length_cons]
        omega

theorem quotedFrom_cons {c : Char} (hc : IsQuotable c) (rest : List Char) :
    quotedFrom 0 (c :: rest) = (quotedFrom 0 rest).map fun (value, behind) => (c :: value, behind) := by
  obtain ⟨hquote, hbackslash, hcontrol⟩ := hc
  have hallowed : ¬ (c.toNat < 32 ∧ c ≠ '\t') := by
    rintro ⟨hlow, htab⟩
    exact hcontrol.elim (Nat.not_le.mpr hlow) htab
  rw [quotedFrom, if_neg hquote, if_neg hbackslash, if_neg hallowed]

/-- The induction is on the text. A character that does not stand for itself ends the scalar too early or takes the
place of more than one. -/
theorem isQuotable_of_quotedFrom {text behind : List Char} (h : quotedFrom 0 (text ++ ['"']) = some (text, behind)) :
    ∀ c ∈ text, IsQuotable c := by
  induction text with
  | nil => exact List.forall_mem_nil _
  | cons c text ih =>
    rw [List.cons_append, quotedFrom] at h
    split_ifs at h with hquote hbackslash hcontrol
    · exact absurd (Prod.mk.inj (Option.some.inj h)).1 (List.cons_ne_nil _ _).symm
    · obtain ⟨⟨meant, count⟩, hescape, h⟩ := Option.bind_eq_some_iff.mp h
      obtain ⟨⟨more, left⟩, hmore, heq⟩ := Option.bind_eq_some_iff.mp h
      obtain ⟨hvalue, -⟩ := Prod.mk.inj (Option.some.inj heq)
      obtain ⟨-, rfl⟩ := List.cons.inj hvalue
      have hpos := pos_of_escape? hescape
      have hlt := length_lt_of_quotedFrom hmore
      rw [List.length_append, List.length_singleton] at hlt
      omega
    · obtain ⟨⟨more, left⟩, hmore, heq⟩ := Option.map_eq_some_iff.mp h
      obtain ⟨hvalue, rfl⟩ := Prod.mk.inj heq
      obtain ⟨-, rfl⟩ := List.cons.inj hvalue
      have hallowed : 32 ≤ c.toNat ∨ c = '\t' := by
        by_contra hnot
        exact hcontrol ⟨Nat.not_le.mp fun hle => hnot (.inl hle), fun htab => hnot (.inr htab)⟩
      exact List.forall_mem_cons.mpr ⟨⟨hquote, hbackslash, hallowed⟩, ih hmore⟩

/-- A text in double quotes is read as the text just if all its characters stand for themselves. -/
theorem quoted?_eq_self_iff {text : List Char} :
    quoted? ('"' :: (text ++ ['"'])) = some (String.ofList text) ↔ ∀ c ∈ text, IsQuotable c := by
  rw [quoted?]
  constructor
  · intro h
    split at h
    case h_1 value behind hread =>
      split_ifs at h
      rw [String.ofList_injective (Option.some.inj h)] at hread
      exact isQuotable_of_quotedFrom hread
    case h_2 => exact absurd h nofun
  · intro h
    have hread : quotedFrom 0 (text ++ ['"']) = some (text, []) := by
      induction text with
      | nil => rfl
      | cons c text ih =>
        rw [List.forall_mem_cons] at h
        rw [List.cons_append, quotedFrom_cons h.1, ih h.2, Option.map_some]
    rw [hread]
    rfl

end Minifier.Yaml
