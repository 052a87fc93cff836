import JoinLevel.Proofs.Dominance
import JoinLevel.Proofs.Receiving

namespace JoinLevel

/-- What lets a fact `I` about single candidates survive the merging of levels, when only the
weaker `W` is known of a candidate whose cheapest path has to be found again. -/
structure Preserved (p : Pruner) (W I : Candidate → Prop) : Prop where
  weaken : ∀ r, I r → W r
  absorb : ∀ r d, W r → W d → W (p.absorb r d)
  absorb_unselected : ∀ r d, I r → W d → r.isSelected = false → I (p.absorb r d)
  select : ∀ r s, W r → (p.select r).result = .ok s → I s

/-- Only the last candidate over bases that are still pending may lack `I`. -/
structure Resolvable (W I : Candidate → Prop) (pending : List BaseSet) (rs : List Candidate) : Prop where
  weak : ∀ r ∈ rs, W r
  settled : ∀ r ∈ rs, I r ∨ r.bases ∈ pending
  earlier : rs.Pairwise fun q r => q.bases = r.bases → I q

variable {p : Pruner} {W I : Candidate → Prop} {task : MergeTask} {m : Merging}
  {pending later : List BaseSet} {rs xs ys out : List Candidate} {r s d : Candidate}

namespace Resolvable

theorem of_forall (hp : Preserved p W I) (h : ∀ r ∈ rs, I r) : Resolvable W I pending rs where
  weak r hr := hp.weaken r (h r hr)
  settled r hr := .inl (h r hr)
  earlier := List.pairwise_of_forall_mem_list fun q hq _ _ _ => h q hq

theorem append_new (h : Resolvable W I pending rs) (hnew : ∀ r ∈ rs, r.bases ≠ d.bases) (hw : W d)
    (hi : I d) : Resolvable W I pending (rs ++ [d]) := by
  refine ⟨?_, ?_, ?_⟩
  · rw [List.forall_mem_append, List.forall_mem_singleton]
    exact ⟨h.weak, hw⟩
  · rw [List.forall_mem_append, List.forall_mem_singleton]
    exact ⟨h.settled, .inl hi⟩
  · rw [List.pairwise_append]
    refine ⟨h.earlier, List.pairwise_singleton _ _, ?_⟩
    intro q hq
    rw [List.forall_mem_singleton]
    exact fun hb => absurd hb (hnew q hq)

theorem replace (h : Resolvable W I pending (xs ++ r :: ys)) (hys : ∀ q ∈ ys, q.bases ≠ r.bases)
    (hs : s.bases = r.bases) (hw : W s) (hi : I s ∨ r.bases ∈ later)
    (hlater : ∀ b ∈ pending, b ≠ r.bases → b ∈ later) : Resolvable W I later (xs ++ s :: ys) := by
  obtain ⟨hxs, hrys, hcross⟩ := List.pairwise_append.mp h.earlier
  -- a candidate over the same bases stands before `r`, so it was settled already
  have hrest : ∀ q ∈ xs ++ ys, I q ∨ q.bases ∈ later := by
    intro q hq
    by_cases hb : q.bases = r.bases
    · rcases List.mem_append.mp hq with hq | hq
      · exact .inl (hcross q hq r List.mem_cons_self hb)
      · exact absurd hb (hys q hq)
    · have hmem : q ∈ xs ++ r :: ys := by
        rw [List.mem_append] at hq ⊢
        exact hq.imp_right (List.mem_cons_of_mem r)
      rcases h.settled q hmem with hi | hmem
      · exact .inl hi
      · exact .inr (hlater _ hmem hb)
  rw [List.forall_mem_append] at hrest
  refine ⟨forall_mem_replace h.weak hw, ?_, ?_⟩
  · rw [List.forall_mem_append, List.forall_mem_cons, hs]
    exact ⟨hrest.1, hi, hrest.2⟩
  · rw [List.pairwise_append, List.pairwise_cons]
    refine ⟨hxs, ⟨?_, (List.pairwise_cons.mp hrys).2⟩, ?_⟩
    · intro q hq hb
      exact absurd (hb.symm.trans hs) (hys q hq)
    · intro q hq
      have hlast := hcross q hq
      rw [List.forall_mem_cons] at hlast ⊢
      rwa [hs]

theorem receive (hp : Preserved p W I) (h : Resolvable W I m.pending m.kept) (hd : I d) :
    Resolvable W I (p.receive task m d).pending (p.receive task m d).kept := by
  rcases p.receive_cases task m d with ⟨hnew, he⟩ | ⟨xs, r, ys, hkept, hr, hys, he⟩
  · rw [he]
    exact h.append_new hnew (hp.weaken d hd) hd
  · rw [he]
    rw [hkept] at h
    have hmem : r ∈ xs ++ r :: ys := by simp
    have hwr := h.weak r hmem
    have hwd := hp.weaken d hd
    apply h.replace (by rwa [hr]) Pruner.absorb_bases (hp.absorb r d hwr hwd)
    · by_cases hsel : r.isSelected || d.isSelected
      · simp [hsel, hr]
      · have hunsel : r.isSelected = false := by
          by_contra hc
          simp [hc] at hsel
        rcases h.settled r hmem with hi | hb
        · exact .inl (hp.absorb_unselected r d hi hwd hunsel)
        · simp [hsel, hb]
    · intro b hb _
      dsimp only
      split
      · exact List.mem_append_left _ hb
      · exact hb

theorem reselect (hp : Preserved p W I) (h : Resolvable W I pending rs)
    (hok : (pending.foldlM p.reselect rs).result = .ok out) : ∀ s ∈ out, I s := by
  induction pending generalizing rs with
  | nil =>
    cases hok
    exact fun s hs => (h.settled s hs).resolve_right (by simp)
  | cons b bs ih =>
    rw [List.foldlM_cons, Run.bind_ok_iff] at hok
    obtain ⟨ss, hss, hok⟩ := hok
    refine ih ?_ hok
    rcases Pruner.reselect_ok hss with ⟨hnone, rfl⟩ | ⟨xs, r, ys, s, rfl, rfl, hys, hs, rfl⟩
    · refine ⟨h.weak, fun q hq => ?_, h.earlier⟩
      rcases h.settled q hq with hi | hb
      · exact .inl hi
      · exact .inr ((List.mem_cons.mp hb).resolve_left (hnone q hq))
    · have hi := hp.select r s (h.weak r (by simp)) hs
      apply h.replace hys (Pruner.select_bases hs) (hp.weaken s hi) (.inl hi)
      intro b hb hne
      exact (List.mem_cons.mp hb).resolve_left hne

end Resolvable

namespace Preserved

theorem foldl_receive (hp : Preserved p W I) (hm : ∀ r ∈ m.kept, I r) (hrs : ∀ d ∈ rs, I d) :
    Resolvable W I (rs.foldl (p.receive task) m).pending (rs.foldl (p.receive task) m).kept :=
  List.foldlRecOn rs (p.receive task) (motive := fun m => Resolvable W I m.pending m.kept)
    (.of_forall hp hm) fun _ h d hd => h.receive hp (hrs d hd)

theorem resolve (hp : Preserved p W I) (hm : ∀ r ∈ m.kept, I r) (hrs : ∀ d ∈ rs, I d)
    (hok : (p.resolve (rs.foldl (p.receive task) m)).result = .ok out) : ∀ s ∈ out, I s := by
  rw [Pruner.resolve_result] at hok
  have h : Resolvable W I (rs.foldl (p.receive task) m).pending (rs.foldl (p.receive task) m).kept :=
    hp.foldl_receive hm hrs
  refine Resolvable.reselect hp ⟨h.weak, fun r hr => ?_, h.earlier⟩ hok
  exact (h.settled r hr).imp_right List.mem_eraseDups.mpr

theorem dedup (hp : Preserved p W I) (hrs : ∀ r ∈ rs, I r) (hok : (p.dedup rs).result = .ok out) :
    ∀ s ∈ out, I s := hp.resolve (by simp) hrs (Pruner.dedup_ok hok)

theorem mergeBatches (hp : Preserved p W I) {first second : List Candidate} (hfirst : ∀ r ∈ first, I r)
    (hsecond : ∀ r ∈ second, I r) (hok : (p.mergeBatches first second).result = .ok out) :
    ∀ s ∈ out, I s := by
  obtain ⟨merged, hm, rfl⟩ := Pruner.mergeBatches_ok hok
  intro s hs
  rcases List.mem_append.mp hs with hs | hs
  · refine hp.resolve hfirst ?_ hm s hs
    exact fun d hd => hsecond d (List.mem_of_mem_filter hd)
  · exact hsecond s (List.mem_of_mem_filter hs)

theorem selectLevel (hp : Preserved p W I) (hrs : ∀ r ∈ rs, I r)
    (hok : (p.selectLevel rs).result = .ok out) : ∀ s ∈ out, I s := by
  intro s hs
  obtain ⟨r, hr, hsel⟩ := Run.exists_of_mem_right (Pruner.selectLevel_ok hok) hs
  exact hp.select r s (hp.weaken r (hrs r hr)) hsel

theorem finish (hp : Preserved p W I) (hrs : ∀ r ∈ rs, I r) (hok : (p.finish rs).result = .ok out) :
    ∀ s ∈ out, I s := by
  obtain ⟨ss, hss, hout⟩ := Run.bind_ok_iff.mp hok
  exact hp.selectLevel (hp.dedup hrs hss) hout

end Preserved

namespace Pruner

variable {ps : List Path}

theorem absorb_paths_subset (hp : p.policy.Selective) (hr : r.paths ⊆ ps) (hd : d.paths ⊆ ps) :
    (p.absorb r d).paths ⊆ ps := by
  intro q hq
  rcases List.mem_append.mp (hp _ _ _ hq) with hq | hq
  · exact hr hq
  · exact hd hq

theorem within_preserved (hp : p.policy.Selective) :
    Preserved p (fun r => r.paths ⊆ ps) (fun r => r.paths ⊆ ps) where
  weaken _ h := h
  absorb _ _ := absorb_paths_subset hp
  absorb_unselected _ _ hr hd _ := absorb_paths_subset hp hr hd
  select _ _ hr hs := List.Subset.trans (select_paths_subset hs) hr

end Pruner
end JoinLevel
