import JoinLevel.Candidate

namespace JoinLevel

namespace Cost

instance : Std.IsLinearPreorder Cost where
  le_refl c := Int.le_refl c.rank
  le_trans a b c := @Int.le_trans a.rank b.rank c.rank
  le_total a b := Int.le_total a.rank b.rank

instance : Std.LawfulOrderLT Cost where
  lt_iff a b := by
    change a.rank < b.rank ↔ a.rank ≤ b.rank ∧ ¬ b.rank ≤ a.rank
    omega

theorem beq_iff_le {a b : Cost} : a == b ↔ a ≤ b ∧ b ≤ a := by
  change (a.rank == b.rank) = true ↔ a.rank ≤ b.rank ∧ b.rank ≤ a.rank
  rw [beq_iff_eq]
  omega

instance : Std.LawfulOrderBEq Cost := ⟨fun _ _ => beq_iff_le⟩

instance : Std.LawfulOrderOrd Cost where
  isLE_compare a b := Std.LawfulOrderOrd.isLE_compare a.rank b.rank
  isGE_compare a b := Std.LawfulOrderOrd.isGE_compare a.rank b.rank

end Cost

theorem cost_le_of_minOn? {ps : List Path} {c q : Path} (h : ps.minOn? Path.cost = some c) (hq : q ∈ ps) :
    c.cost ≤ q.cost := by
  have hle := List.apply_get_minOn?_le_of_mem (f := Path.cost) hq
  simpa only [h, Option.get_some] using hle

theorem minOn?_cost_eq_none_iff {ps : List Path} : ps.minOn? Path.cost = none ↔ ps = [] := by
  rw [← Option.not_isSome_iff_eq_none, List.isSome_minOn?_iff]
  exact Classical.not_not

theorem minOn?_cost_first {ps : List Path} {c : Path} (h : ps.minOn? Path.cost = some c) :
    ∃ as bs, ps = as ++ c :: bs ∧ ∀ q ∈ as, c.cost < q.cost := by
  induction ps generalizing c with
  | nil => simp at h
  | cons p ps ih =>
    rw [List.minOn?_cons, Option.some.injEq] at h
    cases hd : ps.minOn? Path.cost with
    | none =>
      rw [hd, Option.elim_none] at h
      exact ⟨[], ps, by rw [h, List.nil_append], by simp⟩
    | some d =>
      rw [hd, Option.elim_some, minOn] at h
      by_cases hpd : p.cost ≤ d.cost
      · rw [if_pos hpd] at h
        exact ⟨[], ps, by rw [h, List.nil_append], by simp⟩
      · rw [if_neg hpd] at h
        obtain ⟨as, bs, hps, has⟩ := ih (h ▸ hd)
        refine ⟨p :: as, bs, by rw [hps, List.cons_append], ?_⟩
        rw [List.forall_mem_cons, ← h]
        exact ⟨Std.not_le.mp hpd, h ▸ has⟩

theorem minOn?_append_cons {as bs : List Path} {c : Path} (has : ∀ q ∈ as, c.cost < q.cost)
    (hbs : ∀ q ∈ bs, c.cost ≤ q.cost) : (as ++ c :: bs).minOn? Path.cost = some c := by
  induction as with
  | nil =>
    rw [List.nil_append, List.minOn?_cons]
    cases hd : bs.minOn? Path.cost with
    | none => rfl
    | some d => rw [Option.elim_some, minOn, if_pos (hbs d (List.minOn?_mem hd))]
  | cons a as ih =>
    rw [List.forall_mem_cons] at has
    rw [List.cons_append, List.minOn?_cons, ih has.2, Option.elim_some, minOn, if_neg (Std.not_le.mpr has.1)]

theorem minOn?_cost_eq_some_iff {ps : List Path} {c : Path} : ps.minOn? Path.cost = some c ↔
    ∃ as bs, ps = as ++ c :: bs ∧ (∀ q ∈ as, c.cost < q.cost) ∧ ∀ q ∈ bs, c.cost ≤ q.cost := by
  constructor
  · intro hc
    obtain ⟨as, bs, hps, has⟩ := minOn?_cost_first hc
    refine ⟨as, bs, hps, has, ?_⟩
    intro q hq
    apply cost_le_of_minOn? hc
    rw [hps]
    exact List.mem_append_right as (List.mem_cons_of_mem c hq)
  · rintro ⟨as, bs, rfl, has, hbs⟩
    exact minOn?_append_cons has hbs

theorem minOn?_filter_eq_some_iff {ps : List Path} {c : Path} {P : Path → Bool} :
    (ps.filter P).minOn? Path.cost = some c ↔ P c ∧ ∃ as bs, ps = as ++ c :: bs ∧
      (∀ q ∈ as, P q → c.cost < q.cost) ∧ ∀ q ∈ bs, P q → c.cost ≤ q.cost := by
  constructor
  · intro hc
    obtain ⟨as, bs, hfilter, has, hbs⟩ := minOn?_cost_eq_some_iff.mp hc
    obtain ⟨l₁, l₂, rfl, rfl, hl₂⟩ := List.filter_eq_append_iff.mp hfilter
    obtain ⟨l₃, l₄, rfl, hl₃, hP, rfl⟩ := List.filter_eq_cons_iff.mp hl₂
    refine ⟨hP, l₁ ++ l₃, l₄, by rw [List.append_assoc], ?_, ?_⟩
    · intro q hq hqP
      cases List.mem_append.mp hq with
      | inl hq => exact has q (List.mem_filter.mpr ⟨hq, hqP⟩)
      | inr hq => exact absurd hqP (hl₃ q hq)
    · exact fun q hq hqP => hbs q (List.mem_filter.mpr ⟨hq, hqP⟩)
  · rintro ⟨hP, as, bs, rfl, has, hbs⟩
    rw [List.filter_append, List.filter_cons_of_pos hP]
    apply minOn?_append_cons
    · intro q hq
      obtain ⟨hq, hqP⟩ := List.mem_filter.mp hq
      exact has q hq hqP
    · intro q hq
      obtain ⟨hq, hqP⟩ := List.mem_filter.mp hq
      exact hbs q hq hqP

theorem minOn?_filter {ps : List Path} {c : Path} {P : Path → Bool} (hc : ps.minOn? Path.cost = some c)
    (hP : P c) : (ps.filter P).minOn? Path.cost = some c := by
  obtain ⟨as, bs, hps, has, hbs⟩ := minOn?_cost_eq_some_iff.mp hc
  exact minOn?_filter_eq_some_iff.mpr ⟨hP, as, bs, hps, fun q hq _ => has q hq, fun q hq _ => hbs q hq⟩

theorem minOn?_eraseP {ps : List Path} {c : Path} {P : Path → Bool} (hc : ps.minOn? Path.cost = some c)
    (hP : ¬ P c) : (ps.eraseP P).minOn? Path.cost = some c := by
  obtain ⟨as, bs, rfl, has, hbs⟩ := minOn?_cost_eq_some_iff.mp hc
  rw [List.eraseP_append]
  split
  · apply minOn?_append_cons _ hbs
    exact fun q hq => has q (List.mem_of_mem_eraseP hq)
  · rw [List.eraseP_cons_of_neg hP]
    apply minOn?_append_cons has
    exact fun q hq => hbs q (List.mem_of_mem_eraseP hq)

namespace Candidate

theorem cheapestUnordered?_mem {r : Candidate} {u : Path} (h : r.cheapestUnordered? = some u) :
    u ∈ r.paths ∧ u.isUnordered := List.mem_filter.mp (List.minOn?_mem h)

theorem cheapestUnordered?_le {r : Candidate} {u q : Path} (h : r.cheapestUnordered? = some u)
    (hq : q ∈ r.paths) (ho : q.isUnordered) : u.cost ≤ q.cost :=
  cost_le_of_minOn? h (List.mem_filter.mpr ⟨hq, ho⟩)

end Candidate
end JoinLevel
