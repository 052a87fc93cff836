import JoinLevel.Proofs.Receiving

namespace JoinLevel

section LastOver

variable {b : BaseSet} {r : Candidate} {rs es : List Candidate}

theorem lastOver?_append_new (h : ∀ e ∈ es, e.bases ≠ b) : lastOver? b (rs ++ es) = lastOver? b rs := by
  simp only [lastOver?, List.findRev?_eq_find?_reverse, List.reverse_append, List.find?_append]
  rw [List.find?_eq_none.mpr (by simpa using h), Option.none_or]

theorem replaceLast_new (h : ∀ e ∈ es, e.bases ≠ r.bases) : replaceLast r es = es := by
  induction es with
  | nil => rfl
  | cons e es ih =>
    obtain ⟨he, hes⟩ := List.forall_mem_cons.mp h
    rw [replaceLast, if_neg fun hc => he hc.1, ih hes]

theorem replaceLast_append_new (h : ∀ e ∈ es, e.bases ≠ r.bases) :
    replaceLast r (rs ++ es) = replaceLast r rs ++ es := by
  induction rs with
  | nil => exact replaceLast_new h
  | cons q qs ih =>
    have hall : es.all (·.bases ≠ r.bases) := by simpa using h
    simp only [List.cons_append, replaceLast, List.all_append, hall, Bool.and_true, ih]
    split <;> rfl

end LastOver

namespace Pruner

variable {p : Pruner} {task task' : MergeTask} {m m' : Merging} {d : Candidate} {b : BaseSet}
  {rs es first second : List Candidate} {pending : List BaseSet}

theorem receive_new (h : ∀ r ∈ m.kept, r.bases ≠ d.bases) :
    p.receive task m d = { m with kept := m.kept ++ [d] } := by
  rw [receive, lastOver?_eq_none_iff.mpr h]

theorem foldl_receive_nodup (h : ((m.kept ++ rs).map Candidate.bases).Nodup) :
    rs.foldl (p.receive task) m = { m with kept := m.kept ++ rs } := by
  induction rs generalizing m with
  | nil => simp
  | cons d rs ih =>
    have hnew : ∀ r ∈ m.kept, r.bases ≠ d.bases := by
      rw [List.map_append, List.nodup_append] at h
      exact fun r hr => h.2.2 r.bases (List.mem_map_of_mem hr) d.bases (by simp)
    rw [List.foldl_cons, receive_new hnew, ih (by simpa using h)]
    simp

theorem receive_append (hr : ∃ r ∈ m.kept, r.bases = d.bases) (hes : ∀ e ∈ es, e.bases ≠ d.bases)
    (hkept : m'.kept = m.kept ++ es) (hpending : m'.pending = m.pending) :
    (p.receive task' m' d).kept = (p.receive task m d).kept ++ es ∧
      (p.receive task' m' d).pending = (p.receive task m d).pending := by
  cases hl : lastOver? d.bases m.kept with
  | none =>
    obtain ⟨r, hr, hb⟩ := hr
    exact absurd hb (lastOver?_eq_none_iff.mp hl r hr)
  | some r =>
    have hrb : r.bases = d.bases := (lastOver?_eq_some_iff.mp hl).1
    have hput : replaceLast (p.absorb r d) (m.kept ++ es) = replaceLast (p.absorb r d) m.kept ++ es :=
      replaceLast_append_new (by rwa [absorb_bases, hrb])
    simp only [receive, hkept, hpending, lastOver?_append_new hes, hl, hput, and_self]

theorem receive_matched_bases (hr : ∃ r ∈ m.kept, r.bases = d.bases) :
    (p.receive task m d).kept.map Candidate.bases = m.kept.map Candidate.bases := by
  rcases p.receive_cases task m d with ⟨hnew, -⟩ | ⟨xs, r, ys, hkept, -, -, he⟩
  · obtain ⟨r, hr, hb⟩ := hr
    exact absurd hb (hnew r hr)
  · simp [he, hkept]

theorem receive_pending_subset : (p.receive task m d).pending ⊆ m.pending ++ [d.bases] := by
  rcases p.receive_cases task m d with ⟨-, he⟩ | ⟨xs, r, ys, -, -, -, he⟩
  · simp [he]
  · rw [he]
    dsimp only
    split <;> simp

theorem reselect_append (hes : ∀ e ∈ es, e.bases ≠ b) :
    (p.reselect (rs ++ es) b).result = (p.reselect rs b).result.map (· ++ es) := by
  simp only [reselect, lastOver?_append_new hes]
  cases hl : lastOver? b rs with
  | none => rfl
  | some r =>
    have hrb : r.bases = b := (lastOver?_eq_some_iff.mp hl).1
    simp only [Run.result_bind]
    cases hs : (p.select r).result with
    | error v => rfl
    | ok s =>
      have hput : replaceLast s (rs ++ es) = replaceLast s rs ++ es :=
        replaceLast_append_new (by rwa [select_bases hs, hrb])
      simp only [Except.bind, Run.result_pure, Except.map, hput]

theorem foldlM_reselect_append (hes : ∀ b ∈ pending, ∀ e ∈ es, e.bases ≠ b) :
    (pending.foldlM p.reselect (rs ++ es)).result =
      (pending.foldlM p.reselect rs).result.map (· ++ es) := by
  induction pending generalizing rs with
  | nil => rfl
  | cons b bs ih =>
    obtain ⟨hb, hbs⟩ := List.forall_mem_cons.mp hes
    rw [List.foldlM_cons, List.foldlM_cons, Run.result_bind, Run.result_bind, reselect_append hb]
    cases (p.reselect rs b).result with
    | error v => rfl
    | ok ss => exact ih hbs

end Pruner

/-- `m` has received only what matches `first`; `m'` has received the rest as well, which is `es`. -/
structure Ahead (first es : List Candidate) (m m' : Merging) : Prop where
  bases : m.kept.map Candidate.bases = first.map Candidate.bases
  kept : m'.kept = m.kept ++ es
  pending : m'.pending = m.pending
  extra : ∀ e ∈ es, e.bases ∉ first.map Candidate.bases
  within : m.pending ⊆ first.map Candidate.bases

namespace Ahead

variable {p : Pruner} {task task' : MergeTask} {m m' : Merging} {d : Candidate}
  {first es rs : List Candidate}

theorem receive_matched (h : Ahead first es m m') (hd : d.bases ∈ first.map Candidate.bases) :
    Ahead first es (p.receive task m d) (p.receive task' m' d) := by
  have hr : ∃ r ∈ m.kept, r.bases = d.bases := List.mem_map.mp (h.bases ▸ hd)
  have hes : ∀ e ∈ es, e.bases ≠ d.bases := fun e he hb => h.extra e he (hb ▸ hd)
  have happend : (p.receive task' m' d).kept = (p.receive task m d).kept ++ es ∧
      (p.receive task' m' d).pending = (p.receive task m d).pending :=
    Pruner.receive_append hr hes h.kept h.pending
  obtain ⟨hkept, hpending⟩ := happend
  refine ⟨(Pruner.receive_matched_bases hr).trans h.bases, hkept, hpending, h.extra, ?_⟩
  apply List.Subset.trans Pruner.receive_pending_subset
  apply List.append_subset.mpr
  exact ⟨h.within, List.cons_subset.mpr ⟨hd, List.nil_subset _⟩⟩

theorem receive_extra (h : Ahead first es m m') (hd : d.bases ∉ first.map Candidate.bases)
    (hes : ∀ e ∈ es, e.bases ≠ d.bases) : Ahead first (es ++ [d]) m (p.receive task' m' d) := by
  have hnew : ∀ r ∈ m'.kept, r.bases ≠ d.bases := by
    rw [h.kept, List.forall_mem_append]
    refine ⟨?_, hes⟩
    intro r hr hb
    rw [← h.bases, ← hb] at hd
    exact hd (List.mem_map_of_mem hr)
  rw [Pruner.receive_new hnew]
  refine ⟨h.bases, by simp [h.kept], h.pending, ?_, h.within⟩
  rw [List.forall_mem_append, List.forall_mem_singleton]
  exact ⟨h.extra, hd⟩

theorem foldl_receive (h : Ahead first es m m') (hn : ((es ++ rs).map Candidate.bases).Nodup) :
    Ahead first (es ++ rs.filter fun d => !first.any (·.bases = d.bases))
      ((rs.filter fun d => first.any (·.bases = d.bases)).foldl (p.receive task) m)
      (rs.foldl (p.receive task') m') := by
  induction rs generalizing es m m' with
  | nil => simpa using h
  | cons d rs ih =>
    cases hany : first.any (·.bases = d.bases) with
    | true =>
      have hd : d.bases ∈ first.map Candidate.bases := by simpa using hany
      have hn' : ((es ++ rs).map Candidate.bases).Nodup := by
        apply List.Nodup.sublist _ hn
        apply List.Sublist.map
        simp
      simp only [List.filter_cons, hany, Bool.not_true, Bool.false_eq_true, ↓reduceIte, List.foldl_cons]
      exact ih (h.receive_matched hd) hn'
    | false =>
      have hd : d.bases ∉ first.map Candidate.bases := by simpa using hany
      have hes : ∀ e ∈ es, e.bases ≠ d.bases := by
        rw [List.map_append, List.nodup_append] at hn
        exact fun e he => hn.2.2 e.bases (List.mem_map_of_mem he) d.bases (by simp)
      have hnext : Ahead first (es ++ [d]) m (p.receive task' m' d) := h.receive_extra hd hes
      have hrec := ih hnext (by simpa using hn)
      simpa only [List.filter_cons, hany, Bool.not_false, Bool.false_eq_true, ↓reduceIte, List.foldl_cons,
        List.append_assoc, List.singleton_append] using hrec

end Ahead

namespace Pruner

variable {p : Pruner} {first second : List Candidate}

theorem resolve_foldl_receive_append (hfirst : (first.map Candidate.bases).Nodup)
    (hsecond : (second.map Candidate.bases).Nodup) :
    (p.resolve ((first ++ second).foldl (p.receive .deduplicate) {})).result =
      (p.resolve ((second.filter fun d => first.any (·.bases = d.bases)).foldl
        (p.receive .mergeBatches) { kept := first })).result.map
          (· ++ second.filter fun d => !first.any (·.bases = d.bases)) := by
  have hstart : first.foldl (p.receive .deduplicate) {} = { kept := first } := by
    rw [foldl_receive_nodup (by simpa using hfirst)]
    rfl
  have hahead : Ahead first [] { kept := first } { kept := first } := ⟨rfl, by simp, rfl, by simp, by simp⟩
  have h : Ahead first ([] ++ second.filter fun d => !first.any (·.bases = d.bases))
      ((second.filter fun d => first.any (·.bases = d.bases)).foldl (p.receive .mergeBatches) { kept := first })
      (second.foldl (p.receive .deduplicate) { kept := first }) :=
    hahead.foldl_receive (by simpa using hsecond)
  rw [List.nil_append] at h
  rw [List.foldl_append, hstart, resolve_result, resolve_result, h.kept, h.pending]
  apply foldlM_reselect_append
  intro b hb e he hbe
  rw [List.mem_eraseDups] at hb
  exact h.extra e he (hbe ▸ h.within hb)

theorem mergeBatches_eq_dedup (hfirst : (first.map Candidate.bases).Nodup)
    (hsecond : (second.map Candidate.bases).Nodup) :
    (p.mergeBatches first second).result = (p.dedup (first ++ second)).result := by
  rw [mergeBatches_result, dedup_result, resolve_foldl_receive_append hfirst hsecond]

theorem mergeBatches_eq_dedup_chosen :
    (({} : Pruner).dedup [Sample.chosen, Sample.candidate [1, 3] [], Sample.candidate [2, 4] [],
      Sample.candidate [2, 1] [Sample.heapJoin]]).result =
    .ok [Sample.chosen, Sample.candidate [1, 3] [], Sample.candidate [2, 4] []] := by
  have hmerge : (({} : Pruner).mergeBatches [Sample.chosen, Sample.candidate [1, 3] []]
      [Sample.candidate [2, 4] [], Sample.candidate [2, 1] [Sample.heapJoin]]).result =
      .ok [Sample.chosen, Sample.candidate [1, 3] [], Sample.candidate [2, 4] []] := rfl
  rw [mergeBatches_eq_dedup (by decide) (by decide)] at hmerge
  exact hmerge

end Pruner
end JoinLevel
