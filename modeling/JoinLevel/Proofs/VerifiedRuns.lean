import JoinLevel.Proofs.BatchMerge
import JoinLevel.Proofs.Grouping
import JoinLevel.Proofs.Preservation
import JoinLevel.Proofs.Verification

namespace JoinLevel

def Pruner.verifying (p : Pruner) (on : Bool) : Pruner := { p with options := { p.options with verify := on } }

structure Filtered (Fine : List Candidate → Prop) (Report : List Candidate → Violation → Prop)
    (plain verified : Except Violation (List Candidate)) : Prop where
  ok_iff : ∀ out, verified = .ok out ↔ plain = .ok out ∧ Fine out
  error_iff : ∀ v, verified = .error v ↔ plain = .error v ∨ ∃ out, plain = .ok out ∧ Report out v

theorem Filtered.bind {Fine : List Candidate → Prop} {Report : List Candidate → Violation → Prop}
    {check : List Candidate → Except Violation (List Candidate)}
    (hok : ∀ rs out, check rs = .ok out ↔ rs = out ∧ Fine rs) (herror : ∀ rs v, check rs = .error v ↔ Report rs v)
    (x : Except Violation (List Candidate)) : Filtered Fine Report x (x.bind check) := by
  cases x with
  | error v => constructor <;> simp [Except.bind]
  | ok rs =>
    constructor
    · intro out
      simp only [Except.bind, hok, Except.ok.injEq]
      constructor
      · rintro ⟨rfl, hfine⟩
        exact ⟨rfl, hfine⟩
      · rintro ⟨rfl, hfine⟩
        exact ⟨rfl, hfine⟩
    · intro v
      simp [Except.bind, herror]

section Bases

variable {p : Pruner} {task : MergeTask} {m : Merging} {pending : List BaseSet} {rs out first second : List Candidate}

theorem Pruner.foldl_receive_matched_bases (h : ∀ d ∈ rs, d.bases ∈ m.kept.map Candidate.bases) :
    (rs.foldl (p.receive task) m).kept.map Candidate.bases = m.kept.map Candidate.bases := by
  induction rs generalizing m with
  | nil => rfl
  | cons d rs ih =>
    obtain ⟨hd, hrs⟩ := List.forall_mem_cons.mp h
    have hstep : (p.receive task m d).kept.map Candidate.bases = m.kept.map Candidate.bases :=
      Pruner.receive_matched_bases (List.mem_map.mp hd)
    rw [List.foldl_cons, ih (hstep ▸ hrs), hstep]

theorem Pruner.foldlM_reselect_bases (hok : (pending.foldlM p.reselect rs).result = .ok out) :
    out.map Candidate.bases = rs.map Candidate.bases := by
  induction pending generalizing rs with
  | nil =>
    cases hok
    rfl
  | cons b bs ih =>
    rw [List.foldlM_cons, Run.bind_ok_iff] at hok
    obtain ⟨ss, hss, hok⟩ := hok
    rw [ih hok]
    rcases reselect_ok hss with ⟨-, rfl⟩ | ⟨xs, r, ys, s, rfl, -, -, hs, rfl⟩
    · rfl
    · simp [select_bases hs]

theorem Pruner.mergeBatches_bases (hok : (p.mergeBatches first second).result = .ok out) :
    out.map Candidate.bases = first.map Candidate.bases ++
      (second.map Candidate.bases).filter (· ∉ first.map Candidate.bases) := by
  obtain ⟨merged, hmerged, rfl⟩ := mergeBatches_ok hok
  have hbases : merged.map Candidate.bases = first.map Candidate.bases := by
    rw [resolve_result] at hmerged
    rw [foldlM_reselect_bases hmerged]
    apply foldl_receive_matched_bases
    intro d hd
    simpa using (List.mem_filter.mp hd).2
  rw [List.map_append, hbases, List.filter_map]
  congr 2
  apply List.filter_congr
  intro d _
  rw [Bool.eq_iff_iff]
  simp

theorem not_nodup_append_new_iff {α : Type} [DecidableEq α] {as bs : List α} :
    ¬ (as ++ bs.filter (· ∉ as)).Nodup ↔ ∃ a, 1 < as.count a ∨ a ∉ as ∧ 1 < bs.count a := by
  rw [List.nodup_iff_count_le_one, not_forall]
  apply exists_congr
  intro a
  rw [Nat.not_le, List.count_append]
  by_cases ha : a ∈ as
  · have hnone : (bs.filter (· ∉ as)).count a = 0 := List.count_eq_zero.mpr (by simp [ha])
    rw [hnone, Nat.add_zero]
    simp [ha]
  · rw [List.count_filter (by simpa using ha), List.count_eq_zero.mpr ha]
    simp [ha]

end Bases

namespace Pruner

variable {p : Pruner} {rs out first second : List Candidate} {v : Violation}

theorem dedup_verifying (p : Pruner) (rs : List Candidate) :
    Filtered (fun out => (out.map Candidate.bases).Nodup ∧ ∀ r ∈ out, r.Consistent) MergeReport
      ((p.verifying false).dedup rs).result ((p.verifying true).dedup rs).result := by
  rw [dedup_result, dedup_result, bind_checked_of_not_verify rfl]
  exact .bind (fun _ _ => checked_ok_iff rfl) (fun _ _ => checked_error_iff rfl) _

theorem mergeBatches_verifying (p : Pruner) (first second : List Candidate) :
    Filtered (fun out => (out.map Candidate.bases).Nodup ∧ ∀ r ∈ out, r.Consistent) MergeReport
      ((p.verifying false).mergeBatches first second).result ((p.verifying true).mergeBatches first second).result := by
  rw [mergeBatches_result, mergeBatches_result, bind_checked_of_not_verify rfl]
  exact .bind (fun _ _ => checked_ok_iff rfl) (fun _ _ => checked_error_iff rfl) _

theorem selectLevel_verifying (p : Pruner) (rs : List Candidate) :
    Filtered (fun out => ∀ r ∈ out, r.HasLeast) SelectionReport
      ((p.verifying false).selectLevel rs).result ((p.verifying true).selectLevel rs).result := by
  have hplain : ((p.verifying false).selectLevel rs).result = (rs.mapM p.select).result :=
    selectLevel_of_not_verify rfl rs
  rw [hplain, selectLevel_eq]
  exact .bind (fun _ _ => inspected_ok_iff rfl) (fun _ _ => inspected_error_iff rfl) _

theorem dedup_error (h : (p.dedup rs).result = .error v) :
    v.OfSelection ∨ ∃ out, Grouped p rs out ∧ MergeReport out v := by
  rw [dedup_result, Run.except_bind_error_iff] at h
  rcases h with h | ⟨out, hout, h⟩
  · exact .inl (resolve_error h)
  · exact .inr ⟨out, resolve_ok_iff_grouped.mp hout, checked_error h⟩

theorem mergeBatches_error (h : (p.mergeBatches first second).result = .error v) :
    v.OfSelection ∨ ∃ out, MergeReport out v := by
  rw [mergeBatches_result, Run.except_bind_error_iff, Run.except_map_error_iff] at h
  rcases h with h | ⟨out, -, h⟩
  · exact .inl (resolve_error h)
  · exact .inr ⟨out, checked_error h⟩

theorem mapM_select_error (h : (rs.mapM p.select).result = .error v) : v.OfSelection := by
  obtain ⟨-, r, -, -, -, hr⟩ := Run.mapM_error h
  exact select_error hr

theorem selectLevel_error (h : (p.selectLevel rs).result = .error v) :
    v.OfSelection ∨ ∃ out, SelectionReport out v := by
  rw [selectLevel_eq, Run.except_bind_error_iff] at h
  rcases h with h | ⟨out, -, h⟩
  · exact .inl (mapM_select_error h)
  · exact .inr ⟨out, inspected_error h⟩

theorem dedup_ne_duplicate (b : BaseSet) : (p.dedup rs).result ≠ .error (.duplicate b) := by
  intro h
  rcases dedup_error h with h | ⟨out, hout, h⟩
  · exact h
  · rcases h with ⟨r, hr, -⟩ | ⟨-, r, -, hv⟩
    · exact hr.not_nodup (hout.bases ▸ nodup_eraseDups _)
    · cases hv

theorem mergeBatches_duplicate_iff :
    (∃ b, ((p.verifying true).mergeBatches first second).result = .error (.duplicate b)) ↔
      (∃ out, ((p.verifying false).mergeBatches first second).result = .ok out) ∧
        ∃ b, 1 < (first.map Candidate.bases).count b ∨
          b ∉ first.map Candidate.bases ∧ 1 < (second.map Candidate.bases).count b := by
  rw [← not_nodup_append_new_iff]
  constructor
  · rintro ⟨b, h⟩
    rcases ((p.mergeBatches_verifying first second).error_iff _).mp h with h | ⟨out, hout, h⟩
    · rw [mergeBatches_result, bind_checked_of_not_verify rfl, Run.except_map_error_iff] at h
      exact absurd (resolve_error h) id
    · refine ⟨⟨out, hout⟩, ?_⟩
      rw [← mergeBatches_bases hout]
      rcases h with ⟨r, hr, -⟩ | ⟨-, r, -, hv⟩
      · exact hr.not_nodup
      · cases hv
  · rintro ⟨⟨out, hout⟩, hn⟩
    rw [← mergeBatches_bases hout] at hn
    obtain ⟨r, hr⟩ := exists_firstRepeated hn
    exact ⟨r.bases, ((p.mergeBatches_verifying first second).error_iff _).mpr (.inr ⟨out, hout, .inl ⟨r, hr, rfl⟩⟩)⟩

theorem verification_filters (p : Pruner) :
    (∀ rs, Filtered (fun out => (out.map Candidate.bases).Nodup ∧ ∀ r ∈ out, r.Consistent) MergeReport
      ((p.verifying false).dedup rs).result ((p.verifying true).dedup rs).result) ∧
    (∀ first second,
      Filtered (fun out => (out.map Candidate.bases).Nodup ∧ ∀ r ∈ out, r.Consistent) MergeReport
        ((p.verifying false).mergeBatches first second).result
        ((p.verifying true).mergeBatches first second).result) ∧
    (∀ rs, Filtered (fun out => ∀ r ∈ out, r.HasLeast) SelectionReport
      ((p.verifying false).selectLevel rs).result ((p.verifying true).selectLevel rs).result) ∧
    (∀ on rs b, ((p.verifying on).dedup rs).result ≠ .error (.duplicate b)) ∧
    ∀ first second, (∃ b, ((p.verifying true).mergeBatches first second).result = .error (.duplicate b)) ↔
      (∃ out, ((p.verifying false).mergeBatches first second).result = .ok out) ∧
        ∃ b, 1 < (first.map Candidate.bases).count b ∨
          b ∉ first.map Candidate.bases ∧ 1 < (second.map Candidate.bases).count b :=
  ⟨p.dedup_verifying, p.mergeBatches_verifying, p.selectLevel_verifying,
    fun _ _ => dedup_ne_duplicate, fun _ _ => mergeBatches_duplicate_iff⟩

/-- What `second` repeats of `first` is merged, but what it repeats of its own is not. -/
example : ((({} : Pruner).verifying true).mergeBatches []
    [Sample.candidate [3, 4] [Sample.heapJoin], Sample.candidate [4, 3] [Sample.sortedJoin]]).result =
    .error (.duplicate (.ofList [3, 4])) := rfl

theorem consistent_preserved (hm : p.model = .standard) : Preserved p (fun _ => True) Candidate.Consistent where
  weaken _ _ := trivial
  absorb _ _ _ _ := trivial
  absorb_unselected r d _ _ hsel := by
    apply Candidate.Consistent.of_unselected
    have hc : r.cheapest = none := by simpa [Candidate.isSelected] using hsel
    simp [absorb, hc]
  select _ _ _ hs _ := Candidate.hasMinimalCheapest_iff.mp (select_hasMinimalCheapest hm hs)

theorem dedup_of_consistent (hm : p.model = .standard) (hrs : ∀ r ∈ rs, r.Consistent) :
    (p.dedup rs).result = (p.resolve (rs.foldl (p.receive .deduplicate) {})).result := by
  rw [dedup_result]
  cases hout : (p.resolve (rs.foldl (p.receive .deduplicate) {})).result with
  | error v => rfl
  | ok out =>
    have hn : (out.map Candidate.bases).Nodup := (resolve_ok_iff_grouped.mp hout).bases ▸ nodup_eraseDups _
    have hc : ∀ s ∈ out, s.Consistent := (consistent_preserved hm).resolve (by simp) hrs hout
    exact checked_eq_ok hn fun s hs hsel => Candidate.hasMinimalCheapest_iff.mpr (hc s hs hsel)

end Pruner

/-- Checking changes nothing of what the task `task` gives, and its errors are about the choice of paths alone. -/
structure Unalarmed (p : Pruner) (task : Pruner → Run (List Candidate)) : Prop where
  same : (task (p.verifying true)).result = (task (p.verifying false)).result
  error : ∀ on v, (task (p.verifying on)).result = .error v → v.OfSelection

namespace Unalarmed

variable {p : Pruner} {rs first second : List Candidate}

theorem of_eq {task : Pruner → Run (List Candidate)} {x : Except Violation (List Candidate)}
    (h : ∀ on, (task (p.verifying on)).result = x) (hx : ∀ v, x = .error v → v.OfSelection) : Unalarmed p task where
  same := (h true).trans (h false).symm
  error on v he := hx v ((h on).symm.trans he)

theorem dedup (hm : p.model = .standard) (hrs : ∀ r ∈ rs, r.Consistent) : Unalarmed p (·.dedup rs) := by
  apply of_eq (x := (p.resolve (rs.foldl (p.receive .deduplicate) {})).result)
  · intro on
    exact Pruner.dedup_of_consistent (p := p.verifying on) hm hrs
  · exact fun v => Pruner.resolve_error

theorem mergeBatches (hm : p.model = .standard) (hrs : ∀ r ∈ first ++ second, r.Consistent)
    (hfirst : (first.map Candidate.bases).Nodup) (hsecond : (second.map Candidate.bases).Nodup) :
    Unalarmed p (·.mergeBatches first second) := by
  have hdedup : Unalarmed p (·.dedup (first ++ second)) := dedup hm hrs
  constructor
  · simp only [Pruner.mergeBatches_eq_dedup hfirst hsecond]
    exact hdedup.same
  · simp only [Pruner.mergeBatches_eq_dedup hfirst hsecond]
    exact hdedup.error

theorem selectLevel (hm : p.model = .standard) (rs : List Candidate) : Unalarmed p (·.selectLevel rs) := by
  apply of_eq (x := (rs.mapM p.select).result)
  · intro on
    exact Pruner.selectLevel_result (p := p.verifying on) hm rs
  · exact fun v => Pruner.mapM_select_error

theorem finish (hm : p.model = .standard) (hrs : ∀ r ∈ rs, r.Consistent) : Unalarmed p (·.finish rs) := by
  constructor
  · simp only [Pruner.finish, Run.result_bind, (dedup hm hrs).same, (selectLevel hm _).same]
  · intro on v h
    rcases Run.bind_error_iff.mp h with h | ⟨out, -, h⟩
    · exact (dedup hm hrs).error on v h
    · exact (selectLevel hm out).error on v h

end Unalarmed

namespace Pruner

variable {p : Pruner}

theorem ne_unknownUnordered (p : Pruner) (rs second : List Candidate) (b : BaseSet) (i : PathId) :
    (p.dedup rs).result ≠ .error (.unknownUnordered b i) ∧
      (p.finish rs).result ≠ .error (.unknownUnordered b i) ∧
      (p.mergeBatches rs second).result ≠ .error (.unknownUnordered b i) ∧
      (p.selectLevel rs).result ≠ .error (.unknownUnordered b i) := by
  have hdedup : (p.dedup rs).result ≠ .error (.unknownUnordered b i) := by
    intro h
    simpa [Violation.OfSelection, MergeReport] using dedup_error h
  have hselect (rs : List Candidate) : (p.selectLevel rs).result ≠ .error (.unknownUnordered b i) := by
    intro h
    simpa [Violation.OfSelection, SelectionReport] using selectLevel_error h
  refine ⟨hdedup, ?_, ?_, hselect rs⟩
  · intro h
    rcases Run.bind_error_iff.mp h with h | ⟨out, -, h⟩
    · exact hdedup h
    · exact hselect out h
  · intro h
    simpa [Violation.OfSelection, MergeReport] using mergeBatches_error h

theorem no_false_alarm (hm : p.model = .standard) :
    (∀ rs, (∀ r ∈ rs, r.Consistent) → Unalarmed p (·.dedup rs) ∧ Unalarmed p (·.finish rs)) ∧
    (∀ first second, (∀ r ∈ first ++ second, r.Consistent) → (first.map Candidate.bases).Nodup →
      (second.map Candidate.bases).Nodup → Unalarmed p (·.mergeBatches first second)) ∧
    (∀ rs, Unalarmed p (·.selectLevel rs)) ∧
    ∀ rs second b i, (p.dedup rs).result ≠ .error (.unknownUnordered b i) ∧
      (p.finish rs).result ≠ .error (.unknownUnordered b i) ∧
      (p.mergeBatches rs second).result ≠ .error (.unknownUnordered b i) ∧
      (p.selectLevel rs).result ≠ .error (.unknownUnordered b i) := by
  refine ⟨?_, ?_, Unalarmed.selectLevel hm, p.ne_unknownUnordered⟩
  · exact fun rs hrs => ⟨.dedup hm hrs, .finish hm hrs⟩
  · exact fun first second => .mergeBatches hm

theorem no_false_alarm_chosen :
    ((({} : Pruner).verifying true).finish (Sample.chosen :: Sample.offers)).result = .ok [Sample.chosen] ∧
    ((({} : Pruner).verifying true).mergeBatches [Sample.chosen]
      [Sample.candidate [2, 1] [Sample.heapJoin]]).result = .ok [Sample.chosen] := by
  have hchosen : Sample.chosen.Consistent := fun _ => Candidate.hasMinimalCheapest_iff.mp rfl
  have hfresh (ids : List BaseId) (ps : List Path) : (Sample.candidate ids ps).Consistent := .of_unselected rfl
  obtain ⟨hone, hmerge, -⟩ := no_false_alarm (p := {}) rfl
  constructor
  · have hrs : ∀ r ∈ Sample.chosen :: Sample.offers, r.Consistent := by
      simp [Sample.offers, hchosen, hfresh]
    exact (hone _ hrs).2.same.trans rfl
  · have hrs : ∀ r ∈ [Sample.chosen] ++ [Sample.candidate [2, 1] [Sample.heapJoin]], r.Consistent := by
      simp [hchosen, hfresh]
    exact (hmerge _ _ hrs (by decide) (by decide)).same.trans rfl

end Pruner
end JoinLevel
