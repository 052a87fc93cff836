namespace JoinLevel

/-- A string is held as code points, where escapes may leave halves of surrogate pairs.
A word is a number, a literal, or any other run of characters. -/
inductive Token where
  | mark (c : Char)
  | text (codes : List Nat)
  | word (cs : List Char)
  deriving DecidableEq

namespace Token

def isBlank (c : Char) : Bool := c = ' ' ∨ c = '\t' ∨ c = '\n' ∨ c = '\r'

def isMark (c : Char) : Bool := c ∈ ['[', ']', '{', '}', ',', ':']

def inWord (c : Char) : Bool := !isBlank c && !isMark c && c ≠ '"'

def escape? : Char → Option Char
  | '"' => some '"'
  | '\\' => some '\\'
  | '/' => some '/'
  | 'b' => some '\x08'
  | 'f' => some '\x0c'
  | 'n' => some '\n'
  | 'r' => some '\r'
  | 't' => some '\t'
  | _ => none

def hex? (c : Char) : Option Nat :=
  if c.isDigit then some (c.toNat - '0'.toNat)
  else if 'a' ≤ c ∧ c ≤ 'f' then some (c.toNat - 'a'.toNat + 10)
  else if 'A' ≤ c ∧ c ≤ 'F' then some (c.toNat - 'A'.toNat + 10)
  else none

def hex4? (a b c d : Char) : Option Nat := do
  return (← hex? a) * 4096 + (← hex? b) * 256 + (← hex? c) * 16 + (← hex? d)

def string? : List Char → Option (List Nat × List Char)
  | [] => none
  | '"' :: r => some ([], r)
  | '\\' :: 'u' :: a :: b :: c :: d :: r => do
    let n ← hex4? a b c d
    let (s, t) ← string? r
    return (n :: s, t)
  | '\\' :: e :: r => do
    let c ← escape? e
    let (s, t) ← string? r
    return (c.toNat :: s, t)
  | c :: r =>
    if c ≠ '\\' ∧ ' ' ≤ c then do
      let (s, t) ← string? r
      return (c.toNat :: s, t)
    else none

theorem string?_length {cs t : List Char} {s : List Nat} (h : string? cs = some (s, t)) :
    t.length < cs.length := by
  have step {n : Nat} {r : List Char} {ns : List Nat}
      (ih : ∀ {s : List Nat}, string? r = some (s, t) → t.length < r.length)
      (h : (string? r).bind (fun x => some (n :: x.1, x.2)) = some (ns, t)) :
      t.length < r.length := by
    obtain ⟨⟨s, u⟩, hs, hu⟩ := Option.bind_eq_some_iff.mp h
    obtain rfl : u = t := (Prod.mk.inj (Option.some.inj hu)).2
    exact ih hs
  fun_induction string? cs generalizing s with
  | case1 => simp at h
  | case2 r => simp_all
  | case3 a b c d r ih =>
    obtain ⟨n, _, h⟩ := Option.bind_eq_some_iff.mp h
    have := step ih h
    simp only [List.length_cons]
    omega
  | case4 e r _ ih =>
    obtain ⟨c, _, h⟩ := Option.bind_eq_some_iff.mp h
    have := step ih h
    simp only [List.length_cons]
    omega
  | case5 c r _ _ _ _ ih =>
    have := step ih h
    simp only [List.length_cons]
    omega
  | case6 => cases h

def lex (cs : List Char) : Option (List Token) :=
  match cs with
  | [] => some []
  | c :: r =>
    if isBlank c then lex r
    else if isMark c then (lex r).map (mark c :: ·)
    else if c = '"' then
      match _h : string? r with
      | some (s, t) => (lex t).map (text s :: ·)
      | none => none
    else (lex (r.dropWhile inWord)).map (word (c :: r.takeWhile inWord) :: ·)
termination_by cs.length
decreasing_by
  · simp
  · simp
  · have := string?_length ‹_›
    simp only [List.length_cons]
    omega
  · have := (List.dropWhile_sublist inWord (l := r)).length_le
    simp only [List.length_cons]
    omega

/-- Puts surrogate halves together; a half without its other half has no character. -/
def characters? : List Nat → Option (List Char)
  | [] => some []
  | n :: ns =>
    if n < 0xD800 ∨ 0xDFFF < n then (characters? ns).map (Char.ofNat n :: ·)
    else match ns with
      | m :: ns =>
        if n < 0xDC00 ∧ 0xDC00 ≤ m ∧ m ≤ 0xDFFF then
          (characters? ns).map (Char.ofNat ((n - 0xD800) * 0x400 + (m - 0xDC00) + 0x10000) :: ·)
        else none
      | [] => none

def isDigits (cs : List Char) : Bool := !cs.isEmpty && cs.all Char.isDigit

def natural? (cs : List Char) : Option Nat :=
  if isDigits cs ∧ (cs.head? = some '0' → cs = ['0']) then some (Nat.ofDigitChars 10 cs 0) else none

def bool? (cs : List Char) : Option Bool :=
  if cs = "true".toList then some true else if cs = "false".toList then some false else none

def isExponent : List Char → Bool
  | [] => true
  | c :: cs => (c = 'e' ∨ c = 'E') && match cs with
    | '+' :: ds => isDigits ds
    | '-' :: ds => isDigits ds
    | ds => isDigits ds

def isFraction : List Char → Bool
  | '.' :: cs => isDigits (cs.takeWhile Char.isDigit) && isExponent (cs.dropWhile Char.isDigit)
  | cs => isExponent cs

def isUnsigned (cs : List Char) : Bool :=
  (natural? (cs.takeWhile Char.isDigit)).isSome && isFraction (cs.dropWhile Char.isDigit)

def isNumber : List Char → Bool
  | '-' :: cs => isUnsigned cs
  | cs => isUnsigned cs

def isScalar (cs : List Char) : Bool := (bool? cs).isSome || cs = "null".toList || isNumber cs

end Token
end JoinLevel
