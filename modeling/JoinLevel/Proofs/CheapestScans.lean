import JoinLevel.Sample
import JoinLevel.Proofs.CostNumbers
import JoinLevel.Proofs.Verification

namespace JoinLevel

structure Coherent (x y z : Cost) : Prop where
  exactly_one : x < y ∧ ¬ x == y ∧ ¬ y < x ∨ ¬ x < y ∧ x == y ∧ ¬ y < x ∨ ¬ x < y ∧ ¬ x == y ∧ y < x
  le_iff : x ≤ y ↔ ¬ y < x
  lt_trans : x < y → y < z → x < z
  le_trans : x ≤ y → y ≤ z → x ≤ z
  compare_lt_iff : compare x y = .lt ↔ x < y
  compare_eq_iff : compare x y = .eq ↔ x == y
  compare_gt_iff : compare x y = .gt ↔ y < x

theorem Cost.coherent (x y z : Cost) : Coherent x y z where
  exactly_one := by
    have htotal : x ≤ y ∨ y ≤ x := Std.le_total
    rw [Cost.beq_iff_le, ← Std.not_le, ← Std.not_le]
    tauto
  le_iff := Std.not_lt.symm
  lt_trans := Std.lt_trans
  le_trans := Std.le_trans
  compare_lt_iff := Std.compare_eq_lt
  compare_eq_iff := Std.compare_eq_eq
  compare_gt_iff := Std.compare_eq_gt

/-- A scan from the left that gives up the path it holds only for one that compares below it. -/
def scanCheapest : List Path → Option Path
  | [] => none
  | p :: ps => some (ps.foldl (fun held q => if compare held.cost q.cost = .gt then q else held) p)

theorem minOn?_cost_eq_scanCheapest (ps : List Path) : ps.minOn? Path.cost = scanCheapest ps := by
  have hstep : minOn Path.cost = fun held q => if compare held.cost q.cost = .gt then q else held := by
    funext held q
    rw [minOn, ← ite_not]
    apply if_congr _ rfl rfl
    rw [Std.compare_eq_gt, Std.not_le]
  cases ps with
  | nil => rfl
  | cons p ps => rw [List.minOn?, hstep, scanCheapest]

structure FirstLeast (competes : Path → Bool) (ps : List Path) (c : Path) : Prop where
  entered : competes c
  le : ∀ q ∈ ps, competes q → c.cost ≤ q.cost
  not_undercut : ∀ q ∈ ps, competes q → ¬ q.cost < c.cost
  before : ∃ xs ys, ps = xs ++ c :: ys ∧ ∀ q ∈ xs, competes q → c.cost < q.cost

variable {competes : Path → Bool} {ps : List Path} {c : Path}

theorem minOn?_filter_iff_firstLeast :
    (ps.filter competes).minOn? Path.cost = some c ↔ FirstLeast competes ps c := by
  constructor
  · intro hc
    have hle : ∀ q ∈ ps, competes q → c.cost ≤ q.cost := fun q hq hqc =>
      cost_le_of_minOn? hc (List.mem_filter.mpr ⟨hq, hqc⟩)
    obtain ⟨hcompetes, xs, ys, hps, hxs, -⟩ := minOn?_filter_eq_some_iff.mp hc
    exact ⟨hcompetes, hle, fun q hq hqc => Std.not_lt.mpr (hle q hq hqc), xs, ys, hps, hxs⟩
  · rintro ⟨hcompetes, hle, -, xs, ys, rfl, hxs⟩
    refine minOn?_filter_eq_some_iff.mpr ⟨hcompetes, xs, ys, rfl, hxs, ?_⟩
    exact fun q hq => hle q (List.mem_append_right xs (List.mem_cons_of_mem c hq))

theorem Candidate.hasMinimalCheapest_cheapest_iff (r : Candidate) :
    ({ r with cheapest := r.paths.minOn? Path.cost } : Candidate).hasMinimalCheapest ↔ r.paths ≠ [] := by
  rw [Candidate.hasMinimalCheapest_iff]
  constructor
  · rintro ⟨c, hc, -⟩ hnil
    rw [minOn?_cost_eq_none_iff.mpr hnil] at hc
    cases hc
  · intro hps
    obtain ⟨c, hc⟩ := Option.ne_none_iff_exists'.mp (minOn?_cost_eq_none_iff.not.mpr hps)
    exact Candidate.HasLeast.of_minOn? hc hc

structure FindsCheapest (competes : Path → Bool) (ps : List Path) (found : Option Path) : Prop where
  scan : found = scanCheapest (ps.filter competes)
  some_iff : ∀ c, found = some c ↔ FirstLeast competes ps c
  none_iff : found = none ↔ ps.filter competes = []

theorem findsCheapest_minOn? (competes : Path → Bool) (ps : List Path) :
    FindsCheapest competes ps ((ps.filter competes).minOn? Path.cost) where
  scan := minOn?_cost_eq_scanCheapest _
  some_iff _ := minOn?_filter_iff_firstLeast
  none_iff := minOn?_cost_eq_none_iff

theorem cheapest_in_one_cost_order (a b : UInt64) (x y z : Cost) (ps : List Path) (r : Candidate) :
    Cost.ComparesAs a b ∧ Cost.ofBits x.total.toBits = x ∧ Coherent x y z ∧
    FindsCheapest (fun _ => true) ps (CostModel.standard.cheapest? ps) ∧
    FindsCheapest Path.isUnordered r.paths r.cheapestUnordered? ∧
    (({ r with cheapest := CostModel.standard.cheapest? r.paths } : Candidate).hasMinimalCheapest ↔
      r.paths ≠ []) := by
  have hall := findsCheapest_minOn? (fun _ => true) ps
  rw [List.filter_true] at hall
  exact ⟨Cost.comparesAs a b, Cost.ofBits_toBits x, Cost.coherent x y z, hall,
    findsCheapest_minOn? Path.isUnordered r.paths, r.hasMinimalCheapest_cheapest_iff⟩

/-- Infinity is held rather than what is not a number, and the first zero rather than the second. -/
example : (scanCheapest ([0x7FF8000000000001, 0x7FF0000000000000, 0x8000000000000000, 0].map fun b =>
    Sample.scan ⟨b.toNat⟩ 1 (Cost.ofBits b) .unordered)).map Path.id = some ⟨0x8000000000000000⟩ := by
  decide +kernel

end JoinLevel
