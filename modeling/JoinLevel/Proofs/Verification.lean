import JoinLevel.Proofs.Receiving

namespace JoinLevel

section FirstRepeat

variable {α : Type} [DecidableEq α] {seen as : List α} {a : α}

theorem firstRepeat_eq_none_iff : firstRepeat seen as = none ↔ as.Nodup ∧ ∀ a ∈ as, a ∉ seen := by
  induction as generalizing seen with
  | nil => simp [firstRepeat]
  | cons a as ih =>
    by_cases ha : a ∈ seen
    · simp [firstRepeat, ha]
    · rw [firstRepeat, if_neg ha, ih, List.nodup_cons, List.forall_mem_cons]
      simp only [List.mem_cons, not_or]
      constructor
      · rintro ⟨hn, hseen⟩
        exact ⟨⟨fun hmem => (hseen a hmem).1 rfl, hn⟩, ha, fun b hb => (hseen b hb).2⟩
      · rintro ⟨⟨hnew, hn⟩, -, hseen⟩
        exact ⟨hn, fun b hb => ⟨fun hba => hnew (hba ▸ hb), hseen b hb⟩⟩

theorem firstRepeat_eq_some_iff : firstRepeat seen as = some a ↔
    ∃ xs ys, as = xs ++ a :: ys ∧ xs.Nodup ∧ (∀ x ∈ xs, x ∉ seen) ∧ (a ∈ seen ∨ a ∈ xs) := by
  induction as generalizing seen with
  | nil => simp [firstRepeat]
  | cons b as ih =>
    by_cases hb : b ∈ seen
    · rw [firstRepeat, if_pos hb, Option.some.injEq]
      constructor
      · rintro rfl
        exact ⟨[], as, rfl, .nil, by simp, .inl hb⟩
      · rintro ⟨xs, ys, has, -, hxs, -⟩
        cases xs with
        | nil => exact (List.cons.inj has).1
        | cons x xs => exact absurd ((List.cons.inj has).1 ▸ hb) (hxs x List.mem_cons_self)
    · rw [firstRepeat, if_neg hb, ih]
      constructor
      · rintro ⟨xs, ys, rfl, hn, hxs, ha⟩
        have hnew : b ∉ xs := fun hmem => hxs b hmem List.mem_cons_self
        refine ⟨b :: xs, ys, rfl, List.nodup_cons.mpr ⟨hnew, hn⟩, ?_, ?_⟩
        · rw [List.forall_mem_cons]
          exact ⟨hb, fun x hx hseen => hxs x hx (List.mem_cons_of_mem b hseen)⟩
        · rw [List.mem_cons] at ha ⊢
          tauto
      · rintro ⟨xs, ys, has, hn, hxs, ha⟩
        cases xs with
        | nil =>
          rw [← (List.cons.inj has).1] at ha
          exact absurd (ha.resolve_right List.not_mem_nil) hb
        | cons x xs =>
          obtain ⟨rfl, rfl⟩ := List.cons.inj has
          obtain ⟨hnew, hn⟩ := List.nodup_cons.mp hn
          refine ⟨xs, ys, rfl, hn, ?_, ?_⟩
          · intro x hx
            rw [List.mem_cons, not_or]
            exact ⟨fun hxb => hnew (hxb ▸ hx), hxs x (List.mem_cons_of_mem b hx)⟩
          · rw [List.mem_cons] at ha ⊢
            tauto

end FirstRepeat

def Candidate.HasLeast (r : Candidate) : Prop :=
  ∃ c, r.cheapest = some c ∧ c.id ∈ r.paths.map Path.id ∧ ∀ q ∈ r.paths, c.cost ≤ q.cost

def Candidate.Consistent (r : Candidate) : Prop := r.isSelected → r.HasLeast

def FirstRepeated (rs : List Candidate) (r : Candidate) : Prop :=
  ∃ xs ys, rs = xs ++ r :: ys ∧ (xs.map Candidate.bases).Nodup ∧ r.bases ∈ xs.map Candidate.bases

def FirstFailing (Fine : Candidate → Prop) (rs : List Candidate) (r : Candidate) : Prop :=
  ∃ xs ys, rs = xs ++ r :: ys ∧ (∀ x ∈ xs, Fine x) ∧ ¬ Fine r

/-- What is reported of the level `rs` when candidates have been merged into it. Repeated bases come first. -/
def MergeReport (rs : List Candidate) (v : Violation) : Prop :=
  (∃ r, FirstRepeated rs r ∧ v = .duplicate r.bases) ∨
    (rs.map Candidate.bases).Nodup ∧
      ∃ r, FirstFailing Candidate.Consistent rs r ∧ v = .cheapestNotMinimal r.bases

def SelectionReport (rs : List Candidate) (v : Violation) : Prop :=
  ∃ r, FirstFailing Candidate.HasLeast rs r ∧ v = .cheapestNotMinimal r.bases

theorem FirstRepeated.not_nodup {rs : List Candidate} {r : Candidate} (h : FirstRepeated rs r) :
    ¬ (rs.map Candidate.bases).Nodup := by
  obtain ⟨xs, ys, rfl, -, hmem⟩ := h
  rw [List.map_append, List.nodup_append]
  exact fun hn => hn.2.2 r.bases hmem r.bases (by simp) rfl

theorem firstRepeat_bases_eq_some_iff {rs : List Candidate} {b : BaseSet} :
    firstRepeat [] (rs.map Candidate.bases) = some b ↔ ∃ r, FirstRepeated rs r ∧ r.bases = b := by
  rw [firstRepeat_eq_some_iff]
  constructor
  · rintro ⟨xs, ys, hrs, hn, -, hb⟩
    obtain ⟨xs', ys', rfl, rfl, hys⟩ := List.map_eq_append_iff.mp hrs
    obtain ⟨r, zs, rfl, hrb, -⟩ := List.map_eq_cons_iff.mp hys
    exact ⟨r, ⟨xs', zs, rfl, hn, hrb ▸ hb.resolve_left List.not_mem_nil⟩, hrb⟩
  · rintro ⟨r, ⟨xs, ys, rfl, hn, hmem⟩, rfl⟩
    exact ⟨xs.map Candidate.bases, ys.map Candidate.bases, by simp, hn, by simp, .inr hmem⟩

theorem exists_firstRepeated {rs : List Candidate} (h : ¬ (rs.map Candidate.bases).Nodup) :
    ∃ r, FirstRepeated rs r := by
  cases hf : firstRepeat [] (rs.map Candidate.bases) with
  | none => exact absurd (firstRepeat_eq_none_iff.mp hf).1 h
  | some b =>
    obtain ⟨r, hr, -⟩ := firstRepeat_bases_eq_some_iff.mp hf
    exact ⟨r, hr⟩

theorem find?_eq_some_iff_firstFailing {P : Candidate → Bool} {Fine : Candidate → Prop} {rs : List Candidate}
    {r : Candidate} (hP : ∀ r, P r = true ↔ ¬ Fine r) : rs.find? P = some r ↔ FirstFailing Fine rs r := by
  rw [List.find?_eq_some_iff_append, hP]
  simp only [Bool.not_eq_true', ← Bool.not_eq_true, hP, not_not]
  constructor
  · rintro ⟨hr, xs, ys, hrs, hxs⟩
    exact ⟨xs, ys, hrs, hxs, hr⟩
  · rintro ⟨xs, ys, hrs, hxs, hr⟩
    exact ⟨hr, xs, ys, hrs, hxs⟩

theorem exists_firstFailing {Fine : Candidate → Prop} {rs : List Candidate} (h : ¬ ∀ r ∈ rs, Fine r) :
    ∃ r, FirstFailing Fine rs r := by
  induction rs with
  | nil => simp at h
  | cons r rs ih =>
    by_cases hr : Fine r
    · rw [List.forall_mem_cons, not_and] at h
      obtain ⟨s, xs, ys, rfl, hxs, hs⟩ := ih (h hr)
      exact ⟨s, r :: xs, ys, rfl, List.forall_mem_cons.mpr ⟨hr, hxs⟩, hs⟩
    · exact ⟨r, [], rs, rfl, by simp, hr⟩

theorem Candidate.hasMinimalCheapest_iff {r : Candidate} : r.hasMinimalCheapest ↔ r.HasLeast := by
  simp [hasMinimalCheapest, HasLeast, lists, Option.any_eq_true]

theorem Candidate.HasLeast.of_minOn? {r : Candidate} {c : Path} (hr : r.cheapest = some c)
    (hc : r.paths.minOn? Path.cost = some c) : r.HasLeast :=
  ⟨c, hr, List.mem_map_of_mem (List.minOn?_mem hc), fun _ hq => cost_le_of_minOn? hc hq⟩

theorem Candidate.Consistent.of_unselected {r : Candidate} (h : r.cheapest = none) : r.Consistent := by
  intro hsel
  rw [isSelected, h] at hsel
  cases hsel

namespace Pruner

variable {p : Pruner} {r : Candidate} {c : Path} {size : Float} {rs out : List Candidate} {v : Violation}

theorem verifyDistinct_of_nodup (h : (rs.map Candidate.bases).Nodup) : (p.verifyDistinct rs).result = .ok () := by
  have hnone : firstRepeat [] (rs.map Candidate.bases) = none := firstRepeat_eq_none_iff.mpr ⟨h, by simp⟩
  unfold verifyDistinct
  rw [hnone]
  split <;> rfl

theorem verifyDistinct_error_iff (hv : p.options.verify = true) :
    (p.verifyDistinct rs).result = .error v ↔ ∃ r, FirstRepeated rs r ∧ v = .duplicate r.bases := by
  have hfirst (r : Candidate) (hr : FirstRepeated rs r) : firstRepeat [] (rs.map Candidate.bases) = some r.bases :=
    firstRepeat_bases_eq_some_iff.mpr ⟨r, hr, rfl⟩
  rw [verifyDistinct, if_pos hv]
  cases hf : firstRepeat [] (rs.map Candidate.bases) with
  | none =>
    constructor
    · intro h
      cases h
    · rintro ⟨r, hr, -⟩
      rw [hfirst r hr] at hf
      cases hf
  | some b =>
    constructor
    · intro h
      cases h
      obtain ⟨r, hr, hb⟩ := firstRepeat_bases_eq_some_iff.mp hf
      exact ⟨r, hr, by rw [hb]⟩
    · rintro ⟨r, hr, rfl⟩
      rw [hfirst r hr, Option.some.injEq] at hf
      rw [hf]
      rfl

theorem verifyDistinct_ok_iff (hv : p.options.verify = true) :
    (p.verifyDistinct rs).result = .ok () ↔ (rs.map Candidate.bases).Nodup := by
  constructor
  · intro hok
    by_contra hn
    obtain ⟨r, hr⟩ := exists_firstRepeated hn
    rw [(verifyDistinct_error_iff hv).mpr ⟨r, hr, rfl⟩] at hok
    cases hok
  · exact verifyDistinct_of_nodup

theorem verifyCheapest_of_minimal (h : ∀ r ∈ rs, r.hasMinimalCheapest) : (p.verifyCheapest rs).result = .ok () := by
  have hnone : rs.find? (!·.hasMinimalCheapest) = none := by
    apply List.find?_eq_none.mpr
    intro r hr
    simp [h r hr]
  unfold verifyCheapest
  rw [hnone]
  split <;> rfl

theorem verifyCheapest_error_iff (hv : p.options.verify = true) :
    (p.verifyCheapest rs).result = .error v ↔
      ∃ r, rs.find? (!·.hasMinimalCheapest) = some r ∧ v = .cheapestNotMinimal r.bases := by
  rw [verifyCheapest, if_pos hv]
  cases hf : rs.find? (!·.hasMinimalCheapest) with
  | none => simp
  | some r => simp [Run.fail, eq_comm]

theorem checked_eq_ok (hn : (rs.map Candidate.bases).Nodup)
    (h : ∀ r ∈ rs, r.isSelected → r.hasMinimalCheapest) : p.checked rs = .ok rs := by
  have hmin : ∀ r ∈ rs.filter Candidate.isSelected, r.hasMinimalCheapest := by
    intro r hr
    obtain ⟨hmem, hsel⟩ := List.mem_filter.mp hr
    exact h r hmem hsel
  rw [checked, verifyMerged, Run.result_bind, verifyDistinct_of_nodup hn]
  exact Run.except_map_ok_iff.mpr ⟨(), verifyCheapest_of_minimal hmin, rfl⟩

theorem checked_error_iff (hv : p.options.verify = true) : p.checked rs = .error v ↔ MergeReport rs v := by
  have hfailing (r : Candidate) : (rs.filter Candidate.isSelected).find? (!·.hasMinimalCheapest) = some r ↔
      FirstFailing Candidate.Consistent rs r := by
    rw [List.find?_filter]
    apply find?_eq_some_iff_firstFailing
    intro r
    simp [Candidate.Consistent, ← Candidate.hasMinimalCheapest_iff]
  rw [checked, verifyMerged, Run.except_map_error_iff, Run.bind_error_iff, verifyDistinct_error_iff hv,
    verifyCheapest_error_iff hv]
  simp only [verifyDistinct_ok_iff hv, hfailing, exists_const, MergeReport]

theorem checked_error (h : p.checked rs = .error v) : MergeReport rs v := by
  cases hv : p.options.verify with
  | false =>
    rw [checked_of_not_verify hv] at h
    cases h
  | true => exact (checked_error_iff hv).mp h

theorem checked_ok_iff (hv : p.options.verify = true) : p.checked rs = .ok out ↔
    rs = out ∧ (rs.map Candidate.bases).Nodup ∧ ∀ r ∈ rs, r.Consistent := by
  constructor
  · intro hok
    have hno : ∀ v, p.checked rs ≠ .error v := by simp [hok]
    have hn : (rs.map Candidate.bases).Nodup := by
      by_contra hn
      obtain ⟨r, hr⟩ := exists_firstRepeated hn
      exact hno _ ((checked_error_iff hv).mpr (.inl ⟨r, hr, rfl⟩))
    refine ⟨checked_ok hok, hn, ?_⟩
    by_contra hc
    obtain ⟨r, hr⟩ := exists_firstFailing hc
    exact hno _ ((checked_error_iff hv).mpr (.inr ⟨hn, r, hr, rfl⟩))
  · rintro ⟨rfl, hn, hc⟩
    exact checked_eq_ok hn fun r hr hsel => Candidate.hasMinimalCheapest_iff.mpr (hc r hr hsel)

def inspected (p : Pruner) (rs : List Candidate) : Except Violation (List Candidate) :=
  (p.verifyCheapest rs).result.map fun _ => rs

theorem inspected_of_not_verify (hv : p.options.verify = false) (rs : List Candidate) : p.inspected rs = .ok rs := by
  simp [inspected, verifyCheapest, hv, Except.map]

theorem inspected_error_iff (hv : p.options.verify = true) : p.inspected rs = .error v ↔ SelectionReport rs v := by
  have hfailing (r : Candidate) : rs.find? (!·.hasMinimalCheapest) = some r ↔ FirstFailing Candidate.HasLeast rs r := by
    apply find?_eq_some_iff_firstFailing
    intro r
    simp [← Candidate.hasMinimalCheapest_iff]
  rw [inspected, Run.except_map_error_iff, verifyCheapest_error_iff hv]
  simp only [hfailing, SelectionReport]

theorem inspected_error (h : p.inspected rs = .error v) : SelectionReport rs v := by
  cases hv : p.options.verify with
  | false =>
    rw [inspected_of_not_verify hv] at h
    cases h
  | true => exact (inspected_error_iff hv).mp h

theorem inspected_ok_iff (hv : p.options.verify = true) : p.inspected rs = .ok out ↔
    rs = out ∧ ∀ r ∈ rs, r.HasLeast := by
  constructor
  · intro hok
    obtain ⟨-, -, he⟩ := Run.except_map_ok_iff.mp hok
    refine ⟨he, ?_⟩
    by_contra hc
    obtain ⟨r, hr⟩ := exists_firstFailing hc
    rw [(inspected_error_iff hv).mpr ⟨r, hr, rfl⟩] at hok
    cases hok
  · rintro ⟨rfl, hleast⟩
    have hmin : ∀ r ∈ rs, r.hasMinimalCheapest := fun r hr => Candidate.hasMinimalCheapest_iff.mpr (hleast r hr)
    exact Run.except_map_ok_iff.mpr ⟨(), verifyCheapest_of_minimal hmin, rfl⟩

theorem selectLevel_eq (p : Pruner) (rs : List Candidate) :
    (p.selectLevel rs).result = (rs.mapM p.select).result.bind p.inspected := by
  simp only [selectLevel, Run.result_bind]
  rfl

theorem selectLevel_of_not_verify (hv : p.options.verify = false) (rs : List Candidate) :
    (p.selectLevel rs).result = (rs.mapM p.select).result := by
  rw [selectLevel_eq]
  cases hout : (rs.mapM p.select).result with
  | ok out => exact inspected_of_not_verify hv out
  | error v => rfl

theorem choose_hasMinimalCheapest (hc : r.paths.minOn? Path.cost = some c) :
    (p.choose r c size).hasMinimalCheapest :=
  Candidate.hasMinimalCheapest_iff.mpr (.of_minOn? rfl (choose_minOn? hc))

theorem select_hasMinimalCheapest {s : Candidate} (hm : p.model = .standard) (h : (p.select r).result = .ok s) :
    s.hasMinimalCheapest := by
  obtain ⟨c, j, hc, -, rfl⟩ := select_ok_iff.mp h
  rw [hm] at hc
  exact choose_hasMinimalCheapest hc

/-- With the standard model the check at the end of a selection never strikes. -/
theorem selectLevel_result (hm : p.model = .standard) (rs : List Candidate) :
    (p.selectLevel rs).result = (rs.mapM p.select).result := by
  rw [selectLevel_eq]
  cases hout : (rs.mapM p.select).result with
  | error v => rfl
  | ok out =>
    have hmin : ∀ s ∈ out, s.hasMinimalCheapest := by
      intro s hs
      obtain ⟨r, -, hsel⟩ := Run.exists_of_mem_right (Run.mapM_ok_iff.mp hout) hs
      exact select_hasMinimalCheapest hm hsel
    exact Run.except_map_ok_iff.mpr ⟨(), verifyCheapest_of_minimal hmin, rfl⟩

theorem finish_of_dedup {kept : List Candidate} (hm : p.model = .standard) (h : (p.dedup rs).result = .ok kept) :
    (p.finish rs).result = (kept.mapM p.select).result := by
  rw [finish, Run.result_bind, h, ← selectLevel_result hm]
  rfl

end Pruner
end JoinLevel
