import JoinLevel.Level
import JoinLevel.Proofs.Selection

namespace JoinLevel

section LastOver

variable {b : BaseSet} {r s : Candidate} {rs xs ys : List Candidate}

theorem lastOver?_eq_none_iff : lastOver? b rs = none ↔ ∀ r ∈ rs, r.bases ≠ b := by
  simp [lastOver?]

theorem lastOver?_eq_some_iff : lastOver? b rs = some r ↔
    r.bases = b ∧ ∃ xs ys, rs = xs ++ r :: ys ∧ ∀ s ∈ ys, s.bases ≠ b := by
  simp only [lastOver?, List.findRev?_eq_find?_reverse, List.find?_eq_some_iff_append,
    decide_eq_true_eq, List.reverse_eq_append_iff, List.reverse_cons, List.append_assoc,
    List.singleton_append, Bool.not_eq_true', decide_eq_false_iff_not]
  refine and_congr_right fun _ => ?_
  constructor
  · rintro ⟨as, bs, hrs, has⟩
    exact ⟨bs.reverse, as.reverse, hrs, fun s hs => has s (List.mem_reverse.mp hs)⟩
  · rintro ⟨xs, ys, hrs, hys⟩
    refine ⟨ys.reverse, xs.reverse, by simpa using hrs, fun s hs => hys s (List.mem_reverse.mp hs)⟩

theorem forall_mem_replace {P : Candidate → Prop} (h : ∀ q ∈ xs ++ r :: ys, P q) (hs : P s) :
    ∀ q ∈ xs ++ s :: ys, P q := by
  rw [List.forall_mem_append, List.forall_mem_cons] at h ⊢
  exact ⟨h.1, hs, h.2.2⟩

theorem replaceLast_append_cons (hs : s.bases = r.bases) (hys : ∀ q ∈ ys, q.bases ≠ r.bases) :
    replaceLast s (xs ++ r :: ys) = xs ++ s :: ys := by
  induction xs with
  | nil =>
    have hall : ys.all (·.bases ≠ s.bases) := by simpa [hs] using hys
    exact if_pos ⟨hs.symm, hall⟩
  | cons x xs ih => simp [replaceLast, ih, hs]

end LastOver

namespace Pruner

variable {p : Pruner} {task : MergeTask} {m : Merging} {r d : Candidate} {b : BaseSet}
  {rs out : List Candidate}

@[simp] theorem absorb_bases : (p.absorb r d).bases = r.bases := rfl

theorem receive_cases (p : Pruner) (task : MergeTask) (m : Merging) (d : Candidate) :
    ((∀ r ∈ m.kept, r.bases ≠ d.bases) ∧
      p.receive task m d = { m with kept := m.kept ++ [d] }) ∨
    ∃ xs r ys, m.kept = xs ++ r :: ys ∧ r.bases = d.bases ∧ (∀ s ∈ ys, s.bases ≠ d.bases) ∧
      p.receive task m d =
        { kept := xs ++ p.absorb r d :: ys
          pending := if r.isSelected || d.isSelected then m.pending ++ [d.bases] else m.pending
          events := m.events ++ p.absorbEvents task r d } := by
  unfold receive
  cases hl : lastOver? d.bases m.kept with
  | none => exact .inl ⟨lastOver?_eq_none_iff.mp hl, rfl⟩
  | some r =>
    obtain ⟨hr, xs, ys, hkept, hys⟩ := lastOver?_eq_some_iff.mp hl
    refine .inr ⟨xs, r, ys, hkept, hr, hys, ?_⟩
    have hput : replaceLast (p.absorb r d) m.kept = xs ++ p.absorb r d :: ys := by
      rw [hkept]
      exact replaceLast_append_cons rfl (by rwa [hr])
    simp only [hput]

theorem reselect_ok (h : (p.reselect rs b).result = .ok out) :
    ((∀ r ∈ rs, r.bases ≠ b) ∧ out = rs) ∨
    ∃ xs r ys s, rs = xs ++ r :: ys ∧ r.bases = b ∧ (∀ q ∈ ys, q.bases ≠ b) ∧
      (p.select r).result = .ok s ∧ out = xs ++ s :: ys := by
  unfold reselect at h
  cases hl : lastOver? b rs with
  | none =>
    rw [hl] at h
    cases h
    exact .inl ⟨lastOver?_eq_none_iff.mp hl, rfl⟩
  | some r =>
    simp only [hl, Run.bind_ok_iff, Run.result_pure, Except.ok.injEq] at h
    obtain ⟨s, hs, rfl⟩ := h
    obtain ⟨rfl, xs, ys, rfl, hys⟩ := lastOver?_eq_some_iff.mp hl
    obtain ⟨c, j, -, -, rfl⟩ := select_ok_iff.mp hs
    exact .inr ⟨xs, r, ys, _, rfl, rfl, hys, hs, replaceLast_append_cons rfl hys⟩

theorem reselect_error {v : Violation} (h : (p.reselect rs b).result = .error v) : v.OfSelection := by
  unfold reselect at h
  cases hl : lastOver? b rs with
  | none =>
    rw [hl] at h
    cases h
  | some r =>
    rw [hl, Run.bind_error_iff] at h
    rcases h with h | ⟨s, -, h⟩
    · exact select_error h
    · cases h

def checked (p : Pruner) (rs : List Candidate) : Except Violation (List Candidate) :=
  (p.verifyMerged rs).result.map fun _ => rs

theorem checked_ok (h : p.checked rs = .ok out) : rs = out := by
  obtain ⟨-, -, he⟩ := Run.except_map_ok_iff.mp h
  exact he

theorem checked_of_not_verify (hv : p.options.verify = false) (rs : List Candidate) :
    p.checked rs = .ok rs := by
  simp [checked, verifyMerged, verifyDistinct, verifyCheapest, hv, Except.map]

theorem bind_checked_of_not_verify (hv : p.options.verify = false) (x : Except Violation (List Candidate)) :
    x.bind p.checked = x := by
  cases x with
  | ok out => exact checked_of_not_verify hv out
  | error v => rfl

theorem resolve_result (p : Pruner) (m : Merging) :
    (p.resolve m).result = (m.pending.eraseDups.foldlM p.reselect m.kept).result := by
  simp [resolve, Run.result_bind, Except.bind]

theorem resolve_error {v : Violation} (h : (p.resolve m).result = .error v) : v.OfSelection := by
  rw [resolve_result] at h
  generalize m.pending.eraseDups = bs at h
  generalize m.kept = rs at h
  induction bs generalizing rs with
  | nil => cases h
  | cons b bs ih =>
    rw [List.foldlM_cons, Run.bind_error_iff] at h
    rcases h with h | ⟨ss, -, h⟩
    · exact reselect_error h
    · exact ih ss h

theorem dedup_result (p : Pruner) (rs : List Candidate) :
    (p.dedup rs).result = (p.resolve (rs.foldl (p.receive .deduplicate) {})).result.bind p.checked := by
  simp only [dedup, Run.result_bind]
  rfl

theorem mergeBatches_result (p : Pruner) (first second : List Candidate) :
    (p.mergeBatches first second).result =
      ((p.resolve ((second.filter fun d => first.any (·.bases = d.bases)).foldl
        (p.receive .mergeBatches) { kept := first })).result.map
          (· ++ second.filter fun d => !first.any (·.bases = d.bases))).bind p.checked := by
  simp only [mergeBatches, List.partition_eq_filter_filter, Run.result_bind]
  cases (p.resolve _).result <;> rfl

theorem dedup_ok (h : (p.dedup rs).result = .ok out) :
    (p.resolve (rs.foldl (p.receive .deduplicate) {})).result = .ok out := by
  rw [dedup_result, Run.except_bind_ok_iff] at h
  obtain ⟨ss, hss, hc⟩ := h
  rw [← checked_ok hc, hss]

theorem mergeBatches_ok {first second : List Candidate} (h : (p.mergeBatches first second).result = .ok out) :
    ∃ merged, (p.resolve ((second.filter fun d => first.any (·.bases = d.bases)).foldl
      (p.receive .mergeBatches) { kept := first })).result = .ok merged ∧
      out = merged ++ second.filter fun d => !first.any (·.bases = d.bases) := by
  rw [mergeBatches_result, Run.except_bind_ok_iff] at h
  obtain ⟨ss, hss, hc⟩ := h
  obtain ⟨merged, hm, rfl⟩ := Run.except_map_ok_iff.mp hss
  exact ⟨merged, hm, (checked_ok hc).symm⟩

end Pruner
end JoinLevel
