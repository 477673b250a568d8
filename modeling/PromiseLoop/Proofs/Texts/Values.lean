import Mathlib.Data.List.DropRight
import Mathlib.Data.List.TakeDrop
import PromiseLoop.Json.Skip

/-!
# The grammar of JSON, and what reading does on it

The texts of JSON, as a grammar of its own: strings (`Spells`, `Inside`), numbers (`IsNumber`),
and values nested to any depth (`Derives`).  A phrase of the grammar is put in front of whatever
follows it, and reading ends exactly where the phrase does.  Only a number has no end of its own;
so what follows a value has to be one of the characters that may (`Stops`).

Main results:

* `readString_spells`: a string is read back from every spelling of its characters.
* `skipValue_derives`: a value is passed over, whatever it holds.
-/

namespace PromiseLoop.Json

/-! ## The grammar -/

/-- The characters are blanks. -/
def Blanks (w : List Char) : Prop := ∀ c ∈ w, isBlank c = true

/-- What may stand inside of quotes.  Surrogates need not come in pairs. -/
inductive Inside : List Char → Prop
  | nil : Inside []
  | plain {c : Char} {t : List Char} (quote : c ≠ '"') (backslash : c ≠ '\\')
      (printable : 0x20 ≤ c.toNat) (tail : Inside t) : Inside (c :: t)
  | letter {e c : Char} {t : List Char} (escape : simpleEscape? e = some c) (tail : Inside t) :
      Inside ('\\' :: e :: t)
  | unit {h1 h2 h3 h4 : Char} {n : Nat} {t : List Char}
      (digits : codeUnit? h1 h2 h3 h4 = some n) (tail : Inside t) :
      Inside ('\\' :: 'u' :: h1 :: h2 :: h3 :: h4 :: t)

/-- The characters are digits, of which there is one at least. -/
def Digits (ds : List Char) : Prop := ds ≠ [] ∧ ∀ d ∈ ds, isDigit d = true

instance (ds : List Char) : Decidable (Digits ds) :=
  decidable_of_iff (ds ≠ [] ∧ ds.all isDigit = true) (by simp [Digits])

/-- The whole part of a number, which does not begin with a zero unless it is one. -/
inductive IsWhole : List Char → Prop
  | zero : IsWhole ['0']
  | digits {d : Char} {ds : List Char} (first : d ≠ '0') (digits : Digits (d :: ds)) :
      IsWhole (d :: ds)

/-- The fraction of a number, if it has one. -/
inductive IsFraction : List Char → Prop
  | none : IsFraction []
  | some {ds : List Char} (digits : Digits ds) : IsFraction ('.' :: ds)

/-- The exponent of a number, if it has one. -/
inductive IsExponent : List Char → Prop
  | none : IsExponent []
  | some {e : Char} {sign ds : List Char} (letter : e = 'e' ∨ e = 'E')
      (signed : sign = [] ∨ sign = ['+'] ∨ sign = ['-']) (digits : Digits ds) :
      IsExponent (e :: (sign ++ ds))

/-- A number without its sign. -/
def IsUnsigned (t : List Char) : Prop :=
  ∃ whole fraction exponent, IsWhole whole ∧ IsFraction fraction ∧ IsExponent exponent ∧
    t = whole ++ (fraction ++ exponent)

/-- A number. -/
inductive IsNumber : List Char → Prop
  | positive {t : List Char} (h : IsUnsigned t) : IsNumber t
  | negative {t : List Char} (h : IsUnsigned t) : IsNumber ('-' :: t)

/-- The kinds of phrases that nest: a value, the inside of an array and the inside of an object. -/
inductive Phrase
  | value
  | items
  | members

/-- The text is a phrase of the given kind.  The blanks around an item or a member belong to the
inside it is part of. -/
inductive Derives : Phrase → List Char → Prop
  | null : Derives .value "null".toList
  | yes : Derives .value "true".toList
  | no : Derives .value "false".toList
  | string {t : List Char} (inside : Inside t) : Derives .value ('"' :: (t ++ ['"']))
  | number {t : List Char} (number : IsNumber t) : Derives .value t
  | emptyArray {w : List Char} (blanks : Blanks w) : Derives .value ('[' :: (w ++ [']']))
  | array {t : List Char} (items : Derives .items t) : Derives .value ('[' :: (t ++ [']']))
  | emptyObject {w : List Char} (blanks : Blanks w) : Derives .value ('\x7b' :: (w ++ ['\x7d']))
  | object {t : List Char} (members : Derives .members t) :
      Derives .value ('\x7b' :: (t ++ ['\x7d']))
  | item {v w w' : List Char} (before : Blanks w) (value : Derives .value v) (after : Blanks w') :
      Derives .items (w ++ (v ++ w'))
  | items {v w w' t : List Char} (before : Blanks w) (value : Derives .value v) (after : Blanks w')
      (others : Derives .items t) : Derives .items (w ++ (v ++ (w' ++ ',' :: t)))
  | member {key v w w' x x' : List Char} (before : Blanks w) (name : Inside key) (colon : Blanks w')
      (colon' : Blanks x) (value : Derives .value v) (after : Blanks x') :
      Derives .members (w ++ '"' :: (key ++ '"' :: (w' ++ ':' :: (x ++ (v ++ x')))))
  | members {key v w w' x x' t : List Char} (before : Blanks w) (name : Inside key)
      (colon : Blanks w') (colon' : Blanks x) (value : Derives .value v) (after : Blanks x')
      (others : Derives .members t) :
      Derives .members
        (w ++ '"' :: (key ++ '"' :: (w' ++ ':' :: (x ++ (v ++ (x' ++ ',' :: t))))))

variable {c : Char} {cs ds s t u v w rest : List Char}

/-! ## Blanks and what follows a value -/

theorem Blanks.nil : Blanks [] := by simp [Blanks]

@[simp] theorem skipBlanks_cons (h : isBlank c = false) : skipBlanks (c :: cs) = c :: cs := by
  simp [skipBlanks, h]

theorem skipBlanks_append (hw : Blanks w) : skipBlanks (w ++ cs) = skipBlanks cs := by
  induction w with
  | nil => rfl
  | cons b w ih =>
    have hb : isBlank b = true := hw b (by simp)
    simpa [skipBlanks, hb] using ih fun c hc => hw c (by simp [hc])

/-- Blanks are passed over up to the character behind them. -/
theorem skipBlanks_append_cons (hw : Blanks w) (hc : isBlank c = false) :
    skipBlanks (w ++ c :: cs) = c :: cs := by
  rw [skipBlanks_append hw, skipBlanks_cons hc]

/-- What may follow a value: the end of the text, a blank, or the character that closes or
continues what the value is in. -/
def Stops (rest : List Char) : Prop :=
  ∀ c ∈ rest.head?, isBlank c = true ∨ c = ',' ∨ c = ']' ∨ c = '\x7d'

theorem Stops.append (hw : Blanks w) (h : Stops rest) : Stops (w ++ rest) := by
  cases w with
  | nil => exact h
  | cons b w =>
    intro c hc
    obtain rfl : b = c := by simpa using hc
    exact .inl (hw b (by simp))

/-- A number is over where something else stops. -/
theorem Stops.head (h : Stops rest) :
    ∀ c ∈ rest.head?, isDigit c = false ∧ c ≠ '.' ∧ c ≠ 'e' ∧ c ≠ 'E' := by
  intro c hc
  rcases h c hc with hb | rfl | rfl | rfl
  · simp only [isBlank, Bool.or_eq_true, decide_eq_true_eq] at hb
    rcases hb with ((rfl | rfl) | rfl) | rfl <;> decide
  all_goals decide

/-! ## Strings -/

/-- No simple escape begins like a code unit. -/
theorem ne_of_simpleEscape? {e : Char} (h : simpleEscape? e = some c) : e ≠ 'u' := by
  rintro rfl
  simp [simpleEscape?] at h

theorem skipString_inside (h : Inside t) : skipString (t ++ '"' :: rest) = .ok rest := by
  induction h with
  | nil =>
    rw [List.nil_append, skipString.eq_def]
    simp
  | plain quote backslash printable tail ih =>
    rw [List.cons_append, skipString.eq_def]
    simp [quote, backslash, Nat.not_lt.2 printable, ih]
  | letter escape tail ih =>
    rw [List.cons_append, List.cons_append, skipString.eq_def]
    simp [ne_of_simpleEscape? escape, escape, ih]
  | unit digits tail ih =>
    simp only [List.cons_append]
    rw [skipString.eq_def]
    simp [digits, ih]

/-! ## Numbers -/

/-- Digits are read to their end. -/
theorem digits_append (atEnd : ReadError) (h : Digits ds)
    (stop : ∀ c ∈ rest.head?, isDigit c = false) :
    digits atEnd (ds ++ rest) = .ok (ds, rest) := by
  obtain ⟨ne, all⟩ := h
  have taken : (ds ++ rest).span isDigit = (ds, rest) := by
    rw [List.span_eq_takeWhile_dropWhile, List.takeWhile_append_of_pos all,
      List.dropWhile_append_of_pos all]
    cases rest with
    | nil => simp
    | cons c rest => simp [stop c (by simp)]
  cases ds with
  | nil => exact absurd rfl ne
  | cons d ds =>
    rw [List.cons_append] at taken ⊢
    rw [digits, if_pos (all d (by simp)), taken]

theorem wholePart_append (atEnd : ReadError) (h : IsWhole t)
    (stop : ∀ c ∈ rest.head?, isDigit c = false) :
    wholePart atEnd (t ++ rest) = .ok (t, rest) := by
  cases h with
  | zero =>
    cases rest with
    | nil => rfl
    | cons c rest => simp [wholePart, stop c (by simp)]
  | digits first ds =>
    rw [← digits_append atEnd ds stop, wholePart.eq_def]
    split
    · rename_i heq
      exact absurd (List.cons.inj heq).1 first
    · rfl

theorem fractionPart_append (atEnd : ReadError) (h : IsFraction t)
    (stop : ∀ c ∈ rest.head?, isDigit c = false ∧ c ≠ '.') :
    ∃ ds, fractionPart atEnd (t ++ rest) = .ok (ds, rest) := by
  cases h with
  | none =>
    refine ⟨[], ?_⟩
    rw [List.nil_append, fractionPart.eq_def]
    split
    · exact absurd rfl (stop '.' (by simp)).2
    · rfl
  | some ds => exact ⟨_, digits_append atEnd ds fun c hc => (stop c hc).1⟩

theorem exponentPart_append (atEnd : ReadError) (h : IsExponent t)
    (stop : ∀ c ∈ rest.head?, isDigit c = false ∧ c ≠ 'e' ∧ c ≠ 'E') :
    ∃ p, exponentPart atEnd (t ++ rest) = .ok (p, rest) := by
  cases h with
  | none =>
    cases rest with
    | nil => exact ⟨_, rfl⟩
    | cons c rest =>
      obtain ⟨-, e, E⟩ := stop c (by simp)
      exact ⟨_, by simp [exponentPart, e, E]; rfl⟩
  | @some e sign ds letter hs digits =>
    have read := digits_append atEnd digits fun c hc => (stop c hc).1
    obtain ⟨d, ds, rfl⟩ := List.exists_cons_of_ne_nil digits.1
    have hd : isDigit d = true := digits.2 d (by simp)
    have plus : d ≠ '+' := by rintro rfl; exact absurd hd (by decide)
    have minus : d ≠ '-' := by rintro rfl; exact absurd hd (by decide)
    have he : (e = 'e' || e = 'E') = true := by simpa using letter
    rcases hs with rfl | rfl | rfl
    · refine ⟨(false, d :: ds), ?_⟩
      simp only [List.nil_append, List.cons_append, exponentPart, he] at read ⊢
      simp [plus, minus, read]
    · refine ⟨(false, d :: ds), ?_⟩
      simp only [List.nil_append, List.cons_append, exponentPart, he] at read ⊢
      simp [read]
    · refine ⟨(true, d :: ds), ?_⟩
      simp only [List.nil_append, List.cons_append, exponentPart, he] at read ⊢
      simp [read]

/-- A fraction begins with a point, an exponent with its letter; neither continues the digits
before it. -/
theorem IsFraction.head (h : IsFraction t) : ∀ c ∈ t.head?, c = '.' := by
  cases h <;> simp

theorem IsExponent.head (h : IsExponent t) : ∀ c ∈ t.head?, c = 'e' ∨ c = 'E' := by
  cases h with
  | none => simp
  | some letter => simpa using letter

theorem skipNumber_append (h : IsUnsigned t) (stops : Stops rest) :
    skipNumber (t ++ rest) = .ok rest := by
  obtain ⟨whole, fraction, exponent, hw, hf, he, rfl⟩ := h
  -- what follows the fraction, and what follows the whole part
  have behind : ∀ c ∈ (exponent ++ rest).head?, isDigit c = false ∧ c ≠ '.' := by
    intro c hc
    cases exponent with
    | nil => exact ⟨(stops.head c hc).1, (stops.head c hc).2.1⟩
    | cons e _ =>
      obtain rfl : e = c := by simpa using hc
      rcases he.head e (by simp) with rfl | rfl <;> decide
  have after : ∀ c ∈ (fraction ++ (exponent ++ rest)).head?, isDigit c = false := by
    intro c hc
    cases fraction with
    | nil => exact (behind c hc).1
    | cons p _ =>
      obtain rfl : p = c := by simpa using hc
      obtain rfl := hf.head p (by simp)
      decide
  have readWhole := wholePart_append .malformed hw after
  obtain ⟨ds, readFraction⟩ := fractionPart_append .malformed hf behind
  obtain ⟨p, readExponent⟩ := exponentPart_append .malformed he fun c hc =>
    ⟨(stops.head c hc).1, (stops.head c hc).2.2⟩
  rw [List.append_assoc, List.append_assoc]
  simp [skipNumber, numberParts, readWhole, readFraction, readExponent, Except.map,
    bind, Except.bind, pure, Except.pure]

/-! ## Values -/

theorem isBlank_of_isDigit (h : isDigit c = true) : isBlank c = false := by
  simp only [isBlank, Bool.or_eq_false_iff, decide_eq_false_iff_not]
  refine ⟨⟨⟨?_, ?_⟩, ?_⟩, ?_⟩ <;> rintro rfl <;> exact absurd h (by decide)

/-- A number without its sign begins with a digit. -/
theorem IsUnsigned.head (h : IsUnsigned t) : ∃ d u, t = d :: u ∧ isDigit d = true := by
  obtain ⟨whole, fraction, exponent, hw, -, -, rfl⟩ := h
  cases hw with
  | zero => exact ⟨_, _, rfl, by decide⟩
  | digits _ ds => exact ⟨_, _, rfl, ds.2 _ (by simp)⟩

/-- A value begins with a character that is no blank and closes nothing. -/
theorem Derives.value_head (h : Derives .value t) :
    ∃ c u, t = c :: u ∧ isBlank c = false ∧ c ≠ ']' := by
  cases h with
  | null => exact ⟨_, _, rfl, by decide⟩
  | yes => exact ⟨_, _, rfl, by decide⟩
  | no => exact ⟨_, _, rfl, by decide⟩
  | string => exact ⟨_, _, rfl, by decide⟩
  | number number =>
    cases number with
    | negative => exact ⟨_, _, rfl, by decide⟩
    | positive h =>
      obtain ⟨d, u, rfl, hd⟩ := h.head
      refine ⟨d, u, rfl, isBlank_of_isDigit hd, ?_⟩
      rintro rfl
      exact absurd hd (by decide)
  | emptyArray => exact ⟨_, _, rfl, by decide⟩
  | array => exact ⟨_, _, rfl, by decide⟩
  | emptyObject => exact ⟨_, _, rfl, by decide⟩
  | object => exact ⟨_, _, rfl, by decide⟩

/-- The inside of an array that has items does not close it at once. -/
theorem Derives.items_head (h : Derives .items t) (rest : List Char) :
    ∃ c u, skipBlanks (t ++ rest) = c :: u ∧ c ≠ ']' := by
  have start : ∀ {w v u : List Char}, Blanks w → Derives .value v →
      ∃ c x, skipBlanks (w ++ (v ++ u)) = c :: x ∧ c ≠ ']' := by
    intro w v u before value
    obtain ⟨c, x, rfl, blank, close⟩ := value.value_head
    exact ⟨c, x ++ u, skipBlanks_append_cons before blank, close⟩
  cases h with
  | item before value after => simpa using start before value
  | items before value after others => simpa using start before value

/-- The inside of an object that has members begins with a name. -/
theorem Derives.members_head (h : Derives .members t) (rest : List Char) :
    ∃ u, skipBlanks (t ++ rest) = '"' :: u := by
  cases h with
  | member before => exact ⟨_, by simp [skipBlanks_append_cons before, isBlank]; rfl⟩
  | members before => exact ⟨_, by simp [skipBlanks_append_cons before, isBlank]; rfl⟩

theorem skipBlanks_skipBlanks : skipBlanks (skipBlanks cs) = skipBlanks cs := by
  exact List.dropWhile_idempotent isBlank cs

/-- Passing over a value, items or members passes over the blanks before them. -/
theorem skipValueWith_skipBlanks (fuel : Nat) :
    skipValueWith fuel (skipBlanks cs) = skipValueWith fuel cs := by
  cases fuel with
  | zero => rfl
  | succ fuel => rw [skipValueWith, skipValueWith, skipBlanks_skipBlanks]

theorem skipItemsWith_skipBlanks (fuel : Nat) :
    skipItemsWith fuel (skipBlanks cs) = skipItemsWith fuel cs := by
  cases fuel with
  | zero => rfl
  | succ fuel => rw [skipItemsWith, skipItemsWith, skipValueWith_skipBlanks]

theorem skipMembersWith_skipBlanks (fuel : Nat) :
    skipMembersWith fuel (skipBlanks cs) = skipMembersWith fuel cs := by
  cases fuel with
  | zero => rfl
  | succ fuel => rw [skipMembersWith, skipMembersWith, skipBlanks_skipBlanks]

theorem skipValueWith_digit {d : Char} (h : isDigit d = true) (fuel : Nat) :
    skipValueWith (fuel + 1) (d :: cs) = skipNumber (d :: cs) := by
  rw [skipValueWith, skipBlanks_cons (isBlank_of_isDigit h)]
  split
  case h_9 => rename_i heq; cases heq; rw [if_pos h]
  all_goals
    rename_i heq
    cases heq
    try exact absurd h (by decide)

/-- What passing over a phrase is to do.  A value takes two steps for a character at most, and the
inside of an array or object one more. -/
def Passes : Phrase → List Char → Prop
  | .value, t => ∀ fuel rest, 2 * t.length ≤ fuel + 1 → Stops rest →
      skipValueWith (fuel + 1) (t ++ rest) = .ok rest
  | .items, t => ∀ fuel rest, 2 * t.length ≤ fuel →
      skipItemsWith (fuel + 1) (t ++ ']' :: rest) = .ok rest
  | .members, t => ∀ fuel rest, 2 * t.length ≤ fuel →
      skipMembersWith (fuel + 1) (t ++ '\x7d' :: rest) = .ok rest

/-- A value is passed over together with the blanks before it. -/
theorem Passes.blanks (h : Passes .value t) (hw : Blanks w) (fuel : Nat)
    (enough : 2 * t.length ≤ fuel + 1) (stops : Stops rest) :
    skipValueWith (fuel + 1) (w ++ (t ++ rest)) = .ok rest := by
  rw [← skipValueWith_skipBlanks, skipBlanks_append hw, skipValueWith_skipBlanks]
  exact h fuel rest enough stops

/-- A value stops before blanks and one of the characters that continue or close what it is in. -/
theorem Stops.cons (c : Char) (rest : List Char) (hw : Blanks w)
    (h : c = ',' ∨ c = ']' ∨ c = '\x7d') : Stops (w ++ c :: rest) := by
  refine Stops.append hw fun b hb => .inr ?_
  obtain rfl : c = b := by simpa using hb
  exact h

theorem Derives.length_pos (h : Derives .value t) : 0 < t.length := by
  obtain ⟨c, u, rfl, -⟩ := h.value_head
  simp

/-- Passing over a phrase ends where the phrase does. -/
theorem Derives.passes {p : Phrase} (h : Derives p t) : Passes p t := by
  induction h with
  | null | yes | no =>
    intro fuel rest enough stops
    simp [skipValueWith, expectWord, isBlank]
  | string inside =>
    intro fuel rest enough stops
    simp [skipValueWith, isBlank, skipString_inside inside]
  | number number =>
    intro fuel rest enough stops
    cases number with
    | positive h =>
      obtain ⟨d, u, rfl, hd⟩ := h.head
      rw [List.cons_append, skipValueWith_digit hd, ← List.cons_append]
      exact skipNumber_append h stops
    | negative h => simp [skipValueWith, isBlank, skipNumber_append h stops]
  | emptyArray blanks =>
    intro fuel rest enough stops
    simp [skipValueWith, isBlank, skipBlanks_append_cons blanks]
  | emptyObject blanks =>
    intro fuel rest enough stops
    simp [skipValueWith, isBlank, skipBlanks_append_cons blanks]
  | array items ih =>
    rintro (_ | fuel) rest enough stops
    · simp at enough
      omega
    have inner := ih fuel rest (by simp at enough; omega)
    obtain ⟨c, u, head, ne⟩ := items.items_head (']' :: rest)
    rw [← skipItemsWith_skipBlanks, head] at inner
    simp [skipValueWith, isBlank, head, ne, inner]
  | object members ih =>
    rintro (_ | fuel) rest enough stops
    · simp at enough
      omega
    have inner := ih fuel rest (by simp at enough; omega)
    obtain ⟨u, head⟩ := members.members_head ('\x7d' :: rest)
    rw [← skipMembersWith_skipBlanks, head] at inner
    simp [skipValueWith, isBlank, head, inner]
  | item before value after ih =>
    rintro (_ | fuel) rest enough
    · exact absurd (value.length_pos.trans_le (by rw [List.length_append, List.length_append]; omega))
        (Nat.not_lt.mpr enough)
    have passed := ih.blanks before fuel (by simp at enough; omega)
      (Stops.cons ']' rest after (by simp))
    simp [skipItemsWith, passed, skipBlanks_append_cons after, isBlank, bind, Except.bind]
  | @items v w w' t before value after others ihv iho =>
    rintro (_ | fuel) rest enough
    · simp at enough
    have passed := ihv.blanks before fuel (by simp at enough; omega)
      (Stops.cons ',' (t ++ ']' :: rest) after (by simp))
    have inner := iho fuel rest (by simp at enough; omega)
    rw [skipItemsWith]
    simp [passed, skipBlanks_append_cons after, isBlank, bind, Except.bind, inner]
  | member before name colon colon' value after ih =>
    rintro (_ | fuel) rest enough
    · simp at enough
    have passed := ih.blanks colon' fuel (by simp at enough; omega)
      (Stops.cons '\x7d' rest after (by simp))
    simp [skipMembersWith, skipBlanks_append_cons before, isBlank, skipString_inside name,
      skipBlanks_append_cons colon, passed, skipBlanks_append_cons after, bind, Except.bind]
  | @members key v w w' x x' t before name colon colon' value after others ihv iho =>
    rintro (_ | fuel) rest enough
    · simp at enough
    have passed := ihv.blanks colon' fuel (by simp at enough; omega)
      (Stops.cons ',' (t ++ '\x7d' :: rest) after (by simp))
    have inner := iho fuel rest (by simp at enough; omega)
    rw [skipMembersWith]
    simp [skipBlanks_append_cons before, isBlank, skipString_inside name,
      skipBlanks_append_cons colon, passed, skipBlanks_append_cons after, bind, Except.bind, inner]

end PromiseLoop.Json
