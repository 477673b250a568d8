import PromiseLoop.Json.Scan

/-!
# JSON strings

A string is read from the character behind its opening quote.  `readString` decodes it,
`skipString` only finds its end and so does not care whether surrogates come in pairs.  `encode`
writes a string with as few escapes as JSON allows.

Main results:

* `readString_encodeChars`: what is written inside of quotes is read back.
-/

namespace PromiseLoop.Json

/-- The characters that a backslash and one letter stand for. -/
def simpleEscape? (c : Char) : Option Char :=
  match c with
  | '"' => some '"'
  | '\\' => some '\\'
  | '/' => some '/'
  | 'b' => some '\x08'
  | 'f' => some '\x0c'
  | 'n' => some '\n'
  | 'r' => some '\r'
  | 't' => some '\t'
  | _ => none

/-- Whether a code unit opens a surrogate pair. -/
def isLeading (n : Nat) : Bool := 0xd800 ≤ n && n ≤ 0xdbff

/-- Whether a code unit closes a surrogate pair. -/
def isTrailing (n : Nat) : Bool := 0xdc00 ≤ n && n ≤ 0xdfff

/-- The character of a surrogate pair. -/
def pairChar (leading trailing : Nat) : Char :=
  Char.ofNat (0x10000 + (leading - 0xd800) * 0x400 + (trailing - 0xdc00))

/-- Puts a decoded character in front of what follows. -/
def push (c : Char) : Reading (List Char) → Reading (List Char)
  | .ok (s, rest) => .ok (c :: s, rest)
  | .error e => .error e

/-- Decodes a string up to its closing quote. -/
def readString : List Char → Reading (List Char)
  | [] => .error .ended
  | c :: rest =>
    if c = '"' then .ok ([], rest)
    else if c = '\\' then
      match rest with
      | [] => .error .ended
      | e :: rest =>
        if e = 'u' then
          match rest with
          | h1 :: h2 :: h3 :: h4 :: rest =>
            match codeUnit? h1 h2 h3 h4 with
            | none => .error .malformed
            | some n =>
              if isTrailing n then .error .malformed
              else if isLeading n then
                -- the other half of the pair has to follow at once
                match rest with
                | [] => .error .ended
                | b :: rest =>
                  if b ≠ '\\' then .error .malformed
                  else
                    match rest with
                    | [] => .error .ended
                    | u :: rest =>
                      if u ≠ 'u' then .error .malformed
                      else
                        match rest with
                        | h5 :: h6 :: h7 :: h8 :: rest =>
                          match codeUnit? h5 h6 h7 h8 with
                          | none => .error .malformed
                          | some m =>
                            if isTrailing m then push (pairChar n m) (readString rest)
                            else .error .malformed
                        | short => .error (shortEscape short)
              else push (Char.ofNat n) (readString rest)
          | short => .error (shortEscape short)
        else
          match simpleEscape? e with
          | some x => push x (readString rest)
          | none => .error .malformed
    -- a control character may not stand for itself
    else if c.toNat < 0x20 then .error .malformed
    else push c (readString rest)

/-- Finds the end of a string without decoding it. -/
def skipString : List Char → Except ReadError (List Char)
  | [] => .error .ended
  | c :: rest =>
    if c = '"' then .ok rest
    else if c = '\\' then
      match rest with
      | [] => .error .ended
      | e :: rest =>
        if e = 'u' then
          match rest with
          | h1 :: h2 :: h3 :: h4 :: rest =>
            match codeUnit? h1 h2 h3 h4 with
            | none => .error .malformed
            | some _ => skipString rest
          | short => .error (shortEscape short)
        else
          match simpleEscape? e with
          | some _ => skipString rest
          | none => .error .malformed
    else if c.toNat < 0x20 then .error .malformed
    else skipString rest

/-! ## Writing -/

/-- The letter that escapes a character behind a backslash, if writing uses one. -/
def escapeLetter? (c : Char) : Option Char :=
  match c with
  | '"' => some '"'
  | '\\' => some '\\'
  | '\x08' => some 'b'
  | '\x0c' => some 'f'
  | '\n' => some 'n'
  | '\r' => some 'r'
  | '\t' => some 't'
  | _ => none

/-- One character inside of quotes.  Control characters without a letter of their own take the
form `\u00xx`; all others stand for themselves. -/
def encodeChar (c : Char) : List Char :=
  match escapeLetter? c with
  | some letter => ['\\', letter]
  | none =>
    if c.toNat < 0x20 then
      ['\\', 'u', '0', '0', Nat.digitChar (c.toNat / 16), Nat.digitChar (c.toNat % 16)]
    else [c]

/-- A string in quotes. -/
def encode (s : String) : String :=
  "\"" ++ String.ofList (s.toList.flatMap encodeChar) ++ "\""

/-! ## Reading what was written -/

theorem codeUnit?_digitChar : ∀ n < 0x20,
    codeUnit? '0' '0' (Nat.digitChar (n / 16)) (Nat.digitChar (n % 16)) = some n := by
  decide

theorem simpleEscape?_of_escapeLetter? {c letter : Char} (h : escapeLetter? c = some letter) :
    letter ≠ 'u' ∧ simpleEscape? letter = some c := by
  unfold escapeLetter? at h
  split at h
  case h_8 => cases h
  all_goals
    obtain rfl := Option.some.inj h
    decide

theorem ne_of_escapeLetter?_eq_none {c : Char} (h : escapeLetter? c = none) :
    c ≠ '"' ∧ c ≠ '\\' := by
  constructor <;> rintro rfl <;> exact absurd h (by decide)

/-- A written character is read back, whichever of its three forms it was given. -/
theorem readString_encodeChar (c : Char) (rest : List Char) :
    readString (encodeChar c ++ rest) = push c (readString rest) := by
  unfold encodeChar
  split
  · -- a letter of its own
    rename_i letter h
    obtain ⟨hu, hs⟩ := simpleEscape?_of_escapeLetter? h
    rw [readString.eq_def]
    simp [hu, hs]
  · rename_i h
    obtain ⟨hq, hb⟩ := ne_of_escapeLetter?_eq_none h
    split
    · -- four hexadecimal digits, which are no surrogate
      rename_i hc
      have hn := codeUnit?_digitChar c.toNat hc
      have ht : isTrailing c.toNat = false := by simp [isTrailing]; omega
      have hl : isLeading c.toNat = false := by simp [isLeading]; omega
      rw [readString.eq_def]
      simp [hn, ht, hl, Char.ofNat_toNat]
    · -- the character itself
      rename_i hc
      rw [List.singleton_append, readString.eq_def]
      simp [hq, hb, hc]

/-- What is written inside of quotes is read back. -/
theorem readString_encodeChars (s rest : List Char) :
    readString (s.flatMap encodeChar ++ '"' :: rest) = .ok (s, rest) := by
  induction s with
  | nil =>
    rw [List.flatMap_nil, List.nil_append, readString.eq_def]
    simp
  | cons c s ih =>
    rw [List.flatMap_cons, List.append_assoc, readString_encodeChar, ih]
    rfl

end PromiseLoop.Json
