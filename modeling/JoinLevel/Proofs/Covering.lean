import JoinLevel.Proofs.Dominance
import JoinLevel.Proofs.Preservation

namespace JoinLevel

/-- No plan gets worse when `q` takes the place of `p`. -/
def Covers (q p : Path) : Prop := q.cost ≤ p.cost ∧ (q.order = p.order ∨ p.isUnordered)

theorem Covers.refl (p : Path) : Covers p p := ⟨Std.le_refl p.cost, .inl rfl⟩

theorem Covers.trans {p q w : Path} (hwq : Covers w q) (hqp : Covers q p) : Covers w p := by
  refine ⟨Std.le_trans hwq.1 hqp.1, ?_⟩
  rcases hqp.2 with hord | hun
  · rcases hwq.2 with hord' | hun
    · exact .inl (hord'.trans hord)
    · right
      rwa [Path.isUnordered, ← hord]
  · exact .inr hun

def Serves (s r : Candidate) : Prop := s.bases = r.bases ∧ ∀ p ∈ r.paths, ∃ q ∈ s.paths, Covers q p

theorem Serves.refl (r : Candidate) : Serves r r := ⟨rfl, fun p hp => ⟨p, hp, Covers.refl p⟩⟩

theorem Serves.trans {r s t : Candidate} (hts : Serves t s) (hsr : Serves s r) : Serves t r := by
  refine ⟨hts.1.trans hsr.1, ?_⟩
  intro p hp
  obtain ⟨q, hq, hqp⟩ := hsr.2 p hp
  obtain ⟨w, hw, hwq⟩ := hts.2 q hq
  exact ⟨w, hw, hwq.trans hqp⟩

def Supplies (out rs : List Candidate) : Prop := ∀ r ∈ rs, ∃ s ∈ out, Serves s r

namespace Supplies

variable {rs ss ts xs ys : List Candidate} {r s : Candidate}

theorem of_subset (h : rs ⊆ ss) : Supplies ss rs := fun r hr => ⟨r, h hr, Serves.refl r⟩

theorem trans (hts : Supplies ts ss) (hsr : Supplies ss rs) : Supplies ts rs := by
  intro r hr
  obtain ⟨s, hs, hsr⟩ := hsr r hr
  obtain ⟨t, ht, hts⟩ := hts s hs
  exact ⟨t, ht, hts.trans hsr⟩

theorem append {rs' ss' : List Candidate} (h : Supplies ss rs) (h' : Supplies ss' rs') :
    Supplies (ss ++ ss') (rs ++ rs') := by
  intro r hr
  rcases List.mem_append.mp hr with hr | hr
  · obtain ⟨s, hs, hsr⟩ := h r hr
    exact ⟨s, List.mem_append_left _ hs, hsr⟩
  · obtain ⟨s, hs, hsr⟩ := h' r hr
    exact ⟨s, List.mem_append_right _ hs, hsr⟩

theorem replace (h : Serves s r) : Supplies (xs ++ s :: ys) (xs ++ r :: ys) := by
  apply append (of_subset (List.Subset.refl xs))
  intro q hq
  rcases List.mem_cons.mp hq with rfl | hq
  · exact ⟨s, List.mem_cons_self, h⟩
  · exact ⟨q, List.mem_cons_of_mem _ hq, Serves.refl q⟩

end Supplies

theorem contend_covers {kept : List Path} {p q : Path} (hq : q ∈ p :: kept) :
    ∃ w ∈ contend kept p, Covers w q := by
  induction kept with
  | nil => exact ⟨q, hq, Covers.refl q⟩
  | cons k ks ih =>
    simp only [contend]
    by_cases hord : k.order = p.order
    · rw [if_pos hord]
      by_cases hlt : p.cost < k.cost
      · rw [if_pos hlt]
        rcases List.mem_cons.mp hq with rfl | hq
        · exact ⟨q, List.mem_cons_self, Covers.refl q⟩
        · rcases List.mem_cons.mp hq with rfl | hq
          · exact ⟨p, List.mem_cons_self, Std.le_of_lt hlt, .inl hord.symm⟩
          · exact ⟨q, List.mem_cons_of_mem _ hq, Covers.refl q⟩
      · rw [if_neg hlt]
        rcases List.mem_cons.mp hq with rfl | hq
        · exact ⟨k, List.mem_cons_self, Std.not_lt.mp hlt, .inl hord⟩
        · exact ⟨q, hq, Covers.refl q⟩
    · rw [if_neg hord]
      have hq' : q = k ∨ q ∈ p :: ks := by
        simp only [List.mem_cons] at hq ⊢
        tauto
      rcases hq' with rfl | hq'
      · exact ⟨q, List.mem_cons_self, Covers.refl q⟩
      · obtain ⟨w, hw, hc⟩ := ih hq'
        exact ⟨w, List.mem_cons_of_mem _ hw, hc⟩

theorem foldl_contend_covers {kept ps : List Path} {q : Path} (hq : q ∈ kept ++ ps) :
    ∃ w ∈ ps.foldl contend kept, Covers w q := by
  induction ps generalizing kept q with
  | nil => exact ⟨q, by simpa using hq, Covers.refl q⟩
  | cons p ps ih =>
    rcases List.mem_append.mp hq with hq | hq
    · obtain ⟨v, hv, hvq⟩ := contend_covers (p := p) (List.mem_cons_of_mem _ hq)
      obtain ⟨w, hw, hwv⟩ := ih (List.mem_append_left _ hv)
      exact ⟨w, hw, hwv.trans hvq⟩
    · rcases List.mem_cons.mp hq with rfl | hq
      · have hqk : q ∈ q :: kept := List.mem_cons_self
        obtain ⟨v, hv, hvq⟩ := contend_covers hqk
        obtain ⟨w, hw, hwv⟩ := ih (List.mem_append_left _ hv)
        exact ⟨w, hw, hwv.trans hvq⟩
      · exact ih (List.mem_append_right _ hq)

namespace Pruner

variable {p : Pruner} {ps : List Path} {r s d : Candidate} {m : Merging} {task : MergeTask}
  {rs out : List Candidate}

theorem absorb_serves (hp : p.policy = .dominance) {t : Candidate} (hb : r.bases = t.bases)
    (ht : t.paths ⊆ r.paths ++ d.paths) : Serves (p.absorb r d) t := by
  refine ⟨hb, ?_⟩
  intro q hq
  simp only [absorb, hp]
  apply foldl_contend_covers
  simpa using ht hq

theorem select_serves (hm : p.model = .standard) (hid : Identified ps) (hr : r.paths ⊆ ps)
    (hs : (p.select r).result = .ok s) : Serves s r := by
  obtain ⟨c, j, hc, -, rfl⟩ := select_ok_iff.mp hs
  rw [hm] at hc
  have hmin : r.paths.minOn? Path.cost = some c := hc
  have hcr : c ∈ r.paths := List.minOn?_mem hmin
  refine ⟨rfl, ?_⟩
  intro q hq
  rcases mem_choose_paths (c := c) hq with h | ⟨u, hb, hqu⟩
  · exact ⟨q, h, Covers.refl q⟩
  · have hu := (beaten?_eq_some_iff.mp hb).1
    obtain ⟨hur, hun⟩ := Candidate.cheapestUnordered?_mem hu
    obtain rfl : q = u := hid q (hr hq) u (hr hur) hqu
    -- `q` has to meet no order, so the cheapest path may take its place
    exact ⟨c, chosen_mem_choose_paths hcr, cost_le_of_minOn? hmin hq, .inr hun⟩

theorem receive_supplies (hp : p.policy = .dominance) :
    Supplies (p.receive task m d).kept (m.kept ++ [d]) := by
  rcases p.receive_cases task m d with ⟨-, he⟩ | ⟨xs, r, ys, hkept, hr, -, he⟩
  · rw [he]
    exact Supplies.of_subset (List.Subset.refl _)
  · rw [he, hkept]
    have hrest : Supplies (xs ++ p.absorb r d :: ys) (xs ++ r :: ys) :=
      Supplies.replace (absorb_serves hp rfl (by simp))
    intro q hq
    rcases List.mem_append.mp hq with hq | hq
    · exact hrest q hq
    · rw [List.mem_singleton.mp hq]
      exact ⟨p.absorb r d, by simp, absorb_serves hp hr (by simp)⟩

theorem foldl_receive_supplies (hp : p.policy = .dominance) :
    Supplies (rs.foldl (p.receive task) m).kept (m.kept ++ rs) := by
  induction rs generalizing m with
  | nil => exact Supplies.of_subset (by simp)
  | cons d rs ih =>
    have hstep : Supplies ((p.receive task m d).kept ++ rs) (m.kept ++ [d] ++ rs) :=
      (receive_supplies hp).append (Supplies.of_subset (List.Subset.refl rs))
    apply (ih (m := p.receive task m d)).trans
    simpa using hstep

theorem foldlM_reselect_supplies {pending : List BaseSet} (hm : p.model = .standard)
    (hid : Identified ps) (hrs : ∀ r ∈ rs, r.paths ⊆ ps)
    (hok : (pending.foldlM p.reselect rs).result = .ok out) : Supplies out rs := by
  induction pending generalizing rs with
  | nil =>
    cases hok
    exact Supplies.of_subset (List.Subset.refl _)
  | cons b bs ih =>
    rw [List.foldlM_cons, Run.bind_ok_iff] at hok
    obtain ⟨ss, hss, hok⟩ := hok
    rcases reselect_ok hss with ⟨-, rfl⟩ | ⟨xs, r, ys, s, rfl, -, -, hs, rfl⟩
    · exact ih hrs hok
    · have hr : r.paths ⊆ ps := hrs r (by simp)
      have hs' : s.paths ⊆ ps := List.Subset.trans (select_paths_subset hs) hr
      exact (ih (forall_mem_replace hrs hs') hok).trans (Supplies.replace (select_serves hm hid hr hs))

theorem resolve_supplies (hm : p.model = .standard) (hp : p.policy = .dominance) (hid : Identified ps)
    (hkept : ∀ r ∈ m.kept, r.paths ⊆ ps) (hrs : ∀ d ∈ rs, d.paths ⊆ ps)
    (hok : (p.resolve (rs.foldl (p.receive task) m)).result = .ok out) : Supplies out (m.kept ++ rs) := by
  rw [resolve_result] at hok
  have hsel : p.policy.Selective := hp ▸ MergePolicy.dominance_selective
  have hwithin : ∀ r ∈ (rs.foldl (p.receive task) m).kept, r.paths ⊆ ps :=
    ((within_preserved hsel).foldl_receive hkept hrs).weak
  exact (foldlM_reselect_supplies hm hid hwithin hok).trans (foldl_receive_supplies hp)

theorem dedup_supplies (hm : p.model = .standard) (hp : p.policy = .dominance) (hid : Identified ps)
    (hrs : ∀ r ∈ rs, r.paths ⊆ ps) (hok : (p.dedup rs).result = .ok out) : Supplies out rs :=
  resolve_supplies (m := {}) hm hp hid (by simp) hrs (dedup_ok hok)

theorem mergeBatches_supplies {first second : List Candidate} (hm : p.model = .standard)
    (hp : p.policy = .dominance) (hid : Identified ps) (hfirst : ∀ r ∈ first, r.paths ⊆ ps)
    (hsecond : ∀ r ∈ second, r.paths ⊆ ps) (hok : (p.mergeBatches first second).result = .ok out) :
    Supplies out (first ++ second) := by
  obtain ⟨merged, hmerged, rfl⟩ := mergeBatches_ok hok
  have hmatched := resolve_supplies hm hp hid hfirst
    (fun d hd => hsecond d (List.mem_of_mem_filter hd)) hmerged
  have hextra := hmatched.append (Supplies.of_subset (List.Subset.refl
    (second.filter fun d => !first.any (·.bases = d.bases))))
  apply hextra.trans
  apply Supplies.of_subset
  intro r hr
  simp only [List.append_assoc, List.mem_append, List.mem_filter] at hr ⊢
  cases hany : first.any (·.bases = r.bases) with
  | true => tauto
  | false => simp; tauto

theorem selectLevel_supplies (hm : p.model = .standard) (hid : Identified ps)
    (hrs : ∀ r ∈ rs, r.paths ⊆ ps) (hok : (p.selectLevel rs).result = .ok out) : Supplies out rs := by
  intro r hr
  obtain ⟨s, hs, hsel⟩ := Run.exists_of_mem_left (selectLevel_ok hok) hr
  exact ⟨s, hs, select_serves hm hid (hrs r hr) hsel⟩

end Pruner

inductive LevelPlan where
  | given (rs : List Candidate)
  | dedup (part : LevelPlan)
  | select (part : LevelPlan)
  | finish (part : LevelPlan)
  | mergeBatches (first second : LevelPlan)

namespace LevelPlan

def run (p : Pruner) : LevelPlan → Run (List Candidate)
  | given rs => pure rs
  | dedup part => part.run p >>= p.dedup
  | select part => part.run p >>= p.selectLevel
  | finish part => part.run p >>= p.finish
  | mergeBatches first second => do p.mergeBatches (← first.run p) (← second.run p)

def candidates : LevelPlan → List Candidate
  | given rs => rs
  | dedup part | select part | finish part => part.candidates
  | mergeBatches first second => first.candidates ++ second.candidates

def remerge (rs : List Candidate) : LevelPlan := mergeBatches (finish (given rs)) (dedup (given rs))

theorem run_supplies {p : Pruner} {ps : List Path} {plan : LevelPlan} {out : List Candidate}
    (hm : p.model = .standard) (hp : p.policy = .dominance) (hid : Identified ps)
    (hps : ∀ r ∈ plan.candidates, r.paths ⊆ ps) (hok : (plan.run p).result = .ok out) :
    Supplies out plan.candidates ∧ ∀ s ∈ out, s.paths ⊆ ps := by
  have hpres : Preserved p (fun r => r.paths ⊆ ps) (fun r => r.paths ⊆ ps) :=
    Pruner.within_preserved (hp ▸ MergePolicy.dominance_selective)
  induction plan generalizing out with
  | given rs =>
    cases hok
    exact ⟨Supplies.of_subset (List.Subset.refl _), hps⟩
  | dedup part ih =>
    obtain ⟨rs, hrs, hok⟩ := Run.bind_ok_iff.mp hok
    obtain ⟨hsup, hin⟩ := ih hps hrs
    exact ⟨(Pruner.dedup_supplies hm hp hid hin hok).trans hsup, hpres.dedup hin hok⟩
  | select part ih =>
    obtain ⟨rs, hrs, hok⟩ := Run.bind_ok_iff.mp hok
    obtain ⟨hsup, hin⟩ := ih hps hrs
    exact ⟨(Pruner.selectLevel_supplies hm hid hin hok).trans hsup, hpres.selectLevel hin hok⟩
  | finish part ih =>
    obtain ⟨rs, hrs, hok⟩ := Run.bind_ok_iff.mp hok
    obtain ⟨hsup, hin⟩ := ih hps hrs
    obtain ⟨ss, hss, hsel⟩ := Run.bind_ok_iff.mp hok
    have hss' := hpres.dedup hin hss
    have hstep := (Pruner.selectLevel_supplies hm hid hss' hsel).trans
      (Pruner.dedup_supplies hm hp hid hin hss)
    exact ⟨hstep.trans hsup, hpres.finish hin hok⟩
  | mergeBatches first second ih₁ ih₂ =>
    obtain ⟨rs, hrs, hok⟩ := Run.bind_ok_iff.mp hok
    obtain ⟨ss, hss, hok⟩ := Run.bind_ok_iff.mp hok
    obtain ⟨hsup₁, hin₁⟩ := ih₁ (fun r hr => hps r (List.mem_append_left _ hr)) hrs
    obtain ⟨hsup₂, hin₂⟩ := ih₂ (fun r hr => hps r (List.mem_append_right _ hr)) hss
    exact ⟨(Pruner.mergeBatches_supplies hm hp hid hin₁ hin₂ hok).trans (hsup₁.append hsup₂),
      hpres.mergeBatches hin₁ hin₂ hok⟩

theorem no_plan_lost {p : Pruner} {plan : LevelPlan} {out : List Candidate} (hm : p.model = .standard)
    (hp : p.policy = .dominance) (hid : Identified (plan.candidates.flatMap Candidate.paths))
    (hok : (plan.run p).result = .ok out) :
    ∀ r ∈ plan.candidates, ∃ s ∈ out, s.bases = r.bases ∧ ∀ q ∈ r.paths,
      (∃ w ∈ s.paths, w.cost ≤ q.cost ∧ (w.order = q.order ∨ q.order = .unordered)) ∧
      ∀ keys, q.order = .sorted keys → ∃ w ∈ s.paths, w.order = .sorted keys ∧ w.cost ≤ q.cost := by
  obtain ⟨hsup, -⟩ := run_supplies hm hp hid (fun r hr q hq => List.mem_flatMap.mpr ⟨r, hr, hq⟩) hok
  intro r hr
  obtain ⟨s, hs, hb, hcov⟩ := hsup r hr
  refine ⟨s, hs, hb, fun q hq => ?_⟩
  obtain ⟨w, hw, hle, hord⟩ := hcov q hq
  have hord' : w.order = q.order ∨ q.order = .unordered := by simpa [Path.isUnordered] using hord
  refine ⟨⟨w, hw, hle, hord'⟩, fun keys hkeys => ⟨w, hw, ?_, hle⟩⟩
  rcases hord' with h | h
  · exact h.trans hkeys
  · rw [hkeys] at h
    cases h

theorem no_plan_lost_remerged : ((remerge Sample.offers).run {}).result = .ok [Sample.chosen] ∧
    ∃ w ∈ Sample.chosen.paths, w.cost ≤ Sample.heapJoin.cost ∧
      (w.order = Sample.heapJoin.order ∨ Sample.heapJoin.order = .unordered) := by
  have hrun : ((remerge Sample.offers).run {}).result = .ok [Sample.chosen] := rfl
  have hid : Identified ((remerge Sample.offers).candidates.flatMap Candidate.paths) := by
    intro p hp q hq
    simp only [remerge, candidates, List.flatMap_append, List.mem_append, or_self] at hp hq
    exact Sample.offers_identified p hp q hq
  have hheap : Sample.candidate [1, 2] [Sample.heapJoin] ∈ (remerge Sample.offers).candidates :=
    List.mem_append_left _ List.mem_cons_self
  obtain ⟨s, hs, -, hcov⟩ := no_plan_lost rfl rfl hid hrun _ hheap
  rw [List.mem_singleton.mp hs] at hcov
  exact ⟨hrun, (hcov Sample.heapJoin List.mem_cons_self).1⟩

end LevelPlan
end JoinLevel
