namespace JoinLevel

/-- A finite float without its sign: `mantissa * 2 ^ exponent`. -/
structure Magnitude where
  mantissa : Nat
  exponent : Int
  /-- The next float down is half as far away as the next float up. -/
  narrow : Bool
  deriving DecidableEq

namespace Magnitude

def ofBits (b : UInt64) : Magnitude :=
  let e : Nat := b.toNat / Nat.pow 2 52 % Nat.pow 2 11
  let f : Nat := b.toNat % Nat.pow 2 52
  if e = 0 then ⟨f, -1074, false⟩ else ⟨Nat.pow 2 52 + f, (e : Int) - 1075, f = 0 ∧ 1 < e⟩

/-- `num q g / den q g` is `2 ^ q / 10 ^ g`. -/
def num (q g : Int) : Nat := Nat.pow 2 q.toNat * Nat.pow 10 (-g).toNat

def den (q g : Int) : Nat := Nat.pow 2 (-q).toNat * Nat.pow 10 g.toNat

end Magnitude

def signedText (digits : Magnitude → String) (x : Float) : String :=
  if x.isNaN then "NaN"
  else
    let sign := if x.toBits.toNat < Nat.pow 2 63 then "" else "-"
    sign ++ if x.isInf then "inf" else digits (.ofBits x.toBits)

def roundHalfEven (a b : Nat) : Nat :=
  if 2 * (a % b) < b ∨ 2 * (a % b) = b ∧ a / b % 2 = 0 then a / b else a / b + 1

theorem roundHalfEven_near (a : Nat) {b : Nat} (hb : 0 < b) :
    2 * (roundHalfEven a b * b) ≤ 2 * a + b ∧ 2 * a ≤ 2 * (roundHalfEven a b * b) + b := by
  have hd := Nat.div_add_mod a b
  have hm := Nat.mod_lt a hb
  have hs : (a / b + 1) * b = b * (a / b) + b := by rw [Nat.add_mul, Nat.mul_comm, Nat.one_mul]
  have hc : a / b * b = b * (a / b) := Nat.mul_comm _ _
  unfold roundHalfEven
  split
  · rw [hc]; omega
  · rw [hs]; omega

namespace Magnitude

def hundredths (v : Magnitude) : Nat :=
  roundHalfEven (v.mantissa * num v.exponent (-2)) (den v.exponent (-2))

def fixed (v : Magnitude) : String :=
  let n := v.hundredths
  toString (n / 100) ++ "." ++ toString (n % 100 / 10) ++ toString (n % 10)

/-- Whether `t * 10 ^ g` rounds to `v`; the ends of the interval do so when the mantissa is even. -/
def readsBack (v : Magnitude) (g : Int) (t : Nat) : Bool :=
  let n := num (v.exponent - 2) g
  let low := (4 * v.mantissa - if v.narrow then 1 else 2) * n
  let high := (4 * v.mantissa + 2) * n
  let x := t * den (v.exponent - 2) g
  if v.mantissa % 2 = 0 then low ≤ x ∧ x ≤ high else low < x ∧ x < high

def floorOn (v : Magnitude) (g : Int) : Nat := v.mantissa * num v.exponent g / den v.exponent g

/-- Of two multiples of `10 ^ g` that read back the nearer counts, on a tie the greater. -/
def pointOn? (v : Magnitude) (g : Int) : Option Nat :=
  let t := v.floorOn g
  if v.readsBack g t then
    if v.readsBack g (t + 1) ∧ (2 * t + 1) * den v.exponent g ≤ 2 * (v.mantissa * num v.exponent g)
    then some (t + 1) else some t
  else if v.readsBack g (t + 1) then some (t + 1) else none

/-- After `n` finer grids `v` itself is a point of the grid. -/
def search (v : Magnitude) : Nat → Int → Nat × Int
  | 0, g => (v.floorOn g, g)
  | n + 1, g =>
    match v.pointOn? g with
    | some t => (t, g)
    | none => search v n (g - 1)

def coarse (v : Magnitude) : Int := (v.mantissa.log2 + 1 + v.exponent) * 30103 / 100000 + 2

def shortestDigits (v : Magnitude) : Nat × Int :=
  if v.mantissa = 0 then (0, 0)
  else v.search (v.coarse - min v.exponent 0).toNat v.coarse

def positional (t : Nat) (g : Int) : String :=
  let ds := Nat.toDigits 10 t
  if 0 ≤ g then String.ofList (ds ++ List.replicate g.toNat '0')
  else
    let k := (-g).toNat
    let ds := List.replicate (k + 1 - ds.length) '0' ++ ds
    String.ofList (ds.take (ds.length - k) ++ '.' :: ds.drop (ds.length - k))

def shortest (v : Magnitude) : String := positional v.shortestDigits.1 v.shortestDigits.2

end Magnitude

def fixedText : Float → String := signedText Magnitude.fixed

def shortestText : Float → String := signedText Magnitude.shortest

end JoinLevel
