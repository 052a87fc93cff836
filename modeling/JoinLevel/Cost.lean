import JoinLevel.Decimal

namespace JoinLevel

structure Cost where
  total : Float

namespace Cost

/-- Increases with the number; both zeros have rank 0 and NaN ranks above infinity. -/
def rank (c : Cost) : Int :=
  let n := c.total.toBits.toNat
  let m : Nat := n % Nat.pow 2 63
  if 2047 * Nat.pow 2 52 < m then Nat.pow 2 63 else if n < Nat.pow 2 63 then m else -m

instance : LE Cost := ⟨fun a b => a.rank ≤ b.rank⟩

instance : LT Cost := ⟨fun a b => a.rank < b.rank⟩

instance : DecidableLE Cost := fun a b => inferInstanceAs (Decidable (a.rank ≤ b.rank))

instance : DecidableLT Cost := fun a b => inferInstanceAs (Decidable (a.rank < b.rank))

instance : BEq Cost := ⟨fun a b => a.rank == b.rank⟩

instance : Ord Cost := ⟨fun a b => compare a.rank b.rank⟩

instance : Min Cost := minOfLe

instance : Max Cost := maxOfLe

instance : Add Cost := ⟨fun a b => ⟨a.total + b.total⟩⟩

instance : Inhabited Cost := ⟨⟨0⟩⟩

instance : ToString Cost := ⟨fun c => fixedText c.total⟩

end Cost
end JoinLevel
