import JoinLevel.Proofs.Grouping
import JoinLevel.Proofs.LevelSelection

namespace JoinLevel
namespace Pruner

variable {p : Pruner} {r s t t' : Candidate} {rs out : List Candidate} {n : Nat}

/-- Selecting `s` once more costs it an unordered path. -/
def Thins (p : Pruner) (s : Candidate) : Prop :=
  s.pruneable ∧ p.options.pruneUnordered ∧ (∀ c, s.cheapest = some c → ¬ c.isUnordered) ∧ ∃ q ∈ s.paths, q.isUnordered

structure Again (p : Pruner) (s t : Candidate) : Prop where
  same : t = { s with paths := t.paths }
  kept : ¬ p.Thins s → t.paths = s.paths
  thinned : p.Thins s → ∃ xs u ys, s.paths = xs ++ u :: ys ∧ FirstUnordered xs u ys ∧ t.paths = xs ++ ys

structure After (p : Pruner) (n : Nat) (s t : Candidate) : Prop where
  same : t = { s with paths := t.paths }
  sublist : t.paths.Sublist s.paths
  sorted : t.paths.filter (!·.isUnordered) = s.paths.filter (!·.isUnordered)
  cheapest : ∀ c, s.cheapest = some c → c ∈ t.paths
  fewer : p.Thins t → t.paths.countP Path.isUnordered + n ≤ s.paths.countP Path.isUnordered

structure Finished (p : Pruner) (s : Candidate) : Prop where
  chosen : ∃ c j, s.cheapest = some c ∧ s.paths.minOn? Path.cost = some c ∧ c.join? = some j ∧ s.size = j.estimate
  ids : (s.paths.map Path.id).Nodup
  cleared : p.Thins s → s.unordered = none
  recorded : ¬ p.Thins s → s.unordered = s.cheapestUnordered?

structure FinishedLevel (p : Pruner) (rs : List Candidate) : Prop where
  bases : (rs.map Candidate.bases).Nodup
  finished : ∀ s ∈ rs, Finished p s

def rounds (p : Pruner) (rs : List Candidate) : Nat → Run (List Candidate)
  | 0 => pure rs
  | n + 1 => p.rounds rs n >>= p.finish

theorem thins_iff {c u : Path} (hc : s.cheapest = some c) (hu : s.cheapestUnordered? = some u) :
    p.Thins s ↔ s.pruneable ∧ p.options.pruneUnordered ∧ ¬ c.isUnordered := by
  have hex : ∃ q ∈ s.paths, q.isUnordered := ⟨u, Candidate.cheapestUnordered?_mem hu⟩
  simp only [Thins, hc, Option.some.injEq, forall_eq', hex, and_true]

theorem not_thins_of_all_sorted (h : ∀ q ∈ s.paths, ¬ q.isUnordered) : ¬ p.Thins s := by
  rintro ⟨-, -, -, q, hq, hqu⟩
  exact h q hq hqu

theorem finished_of_beaten {c u : Path} {j : Join} (hc : r.paths.minOn? Path.cost = some c) (hj : c.join? = some j)
    (hb : p.beaten? r c = some u) (hids : ((p.choose r c j.estimate).paths.map Path.id).Nodup) :
    Finished p (p.choose r c j.estimate) := by
  obtain ⟨hu, hne, hpr, hopt⟩ := beaten?_eq_some_iff.mp hb
  have hcleared : (p.choose r c j.estimate).unordered = none := by simp only [choose, hb]
  refine ⟨⟨c, j, rfl, choose_minOn? hc, hj, rfl⟩, hids, fun _ => hcleared, ?_⟩
  intro hrests
  -- what made `u` give way still holds, so only for want of an unordered path does the next round rest
  rw [hcleared, eq_comm, Candidate.cheapestUnordered?_eq_none_iff]
  intro q hq hqu
  apply hrests
  refine ⟨hpr, hopt, ?_, q, hq, hqu⟩
  intro c' hc'
  cases hc'
  exact cheapest_sorted hc hu hne

theorem finished_of_unbeaten {c : Path} {j : Join} (hc : r.paths.minOn? Path.cost = some c) (hj : c.join? = some j)
    (hb : p.beaten? r c = none) (hids : ((p.choose r c j.estimate).paths.map Path.id).Nodup) :
    Finished p (p.choose r c j.estimate) := by
  have hpaths : (p.choose r c j.estimate).paths = r.paths := by simp only [choose, hb]
  have hchosen : (p.choose r c j.estimate).cheapest = some c := rfl
  cases hu : (p.choose r c j.estimate).cheapestUnordered? with
  | none =>
    have hsorted := Candidate.cheapestUnordered?_eq_none_iff.mp hu
    have hunordered := (choose_of_all_sorted p c j.estimate (hpaths ▸ hsorted)).2
    exact ⟨⟨c, j, rfl, choose_minOn? hc, hj, rfl⟩, hids, fun _ => hunordered, fun _ => hunordered.trans hu.symm⟩
  | some u =>
    obtain ⟨xs, ys, hps, hfirst⟩ := Candidate.exists_firstUnordered hu
    rw [hpaths] at hps
    have hfate := choose_of_first p j.estimate (hpaths ▸ hids) hc hps hfirst
    have hthins : p.Thins (p.choose r c j.estimate) ↔ r.pruneable ∧ p.options.pruneUnordered ∧ ¬ c.isUnordered :=
      thins_iff hchosen hu
    refine ⟨⟨c, j, rfl, choose_minOn? hc, hj, rfl⟩, hids, ?_, ?_⟩
    · intro h
      rw [if_pos (hthins.mp h)] at hfate
      exact hfate.2
    · intro h
      rw [if_neg (mt hthins.mpr h)] at hfate
      exact hfate.2.trans hu.symm

theorem finished_of_select (hm : p.model = .standard) (hs : (p.select r).result = .ok s)
    (hids : (s.paths.map Path.id).Nodup) : Finished p s := by
  obtain ⟨c, j, hc, hj, rfl⟩ := select_ok_iff.mp hs
  rw [hm] at hc hids ⊢
  cases hb : p.beaten? r c with
  | none => exact finished_of_unbeaten hc hj hb hids
  | some u => exact finished_of_beaten hc hj hb hids

theorem Finished.again (hm : p.model = .standard) (hf : Finished p s) (ht : (p.select s).result = .ok t) :
    Again p s t := by
  have hselected : Selected p s t := selected_of_select (hm ▸ CostModel.standard_selective) ht
  have hpruned : Pruned p s t := pruned_of_select hm hf.ids ht
  obtain ⟨c, j, hc, hmin, hj, hsize⟩ := hf.chosen
  obtain ⟨c', j', hc', hj', htc, -, htsize⟩ := hselected.chosen
  rw [hm] at hc' htsize
  obtain rfl : c' = c := Option.some.inj (hc'.symm.trans hmin)
  obtain rfl : j' = j := Option.some.inj (hj'.symm.trans hj)
  -- the cheapest path and the size come out as they were; what is left to show is that `unordered` does
  have hsame (hunordered : t.unordered = s.unordered) : t = { s with paths := t.paths } := by
    calc
      t = { s with paths := t.paths, cheapest := t.cheapest, unordered := t.unordered, size := t.size } :=
        hselected.untouched
      _ = { s with paths := t.paths } := by rw [htc, ← hc, hunordered, htsize, hsize]; rfl
  cases hu : s.cheapestUnordered? with
  | none =>
    have hsorted := Candidate.cheapestUnordered?_eq_none_iff.mp hu
    have hrests : ¬ p.Thins s := not_thins_of_all_sorted hsorted
    obtain ⟨hpaths, hunordered⟩ := hpruned.sorted hsorted
    refine ⟨hsame ?_, fun _ => hpaths, fun hthins => absurd hthins hrests⟩
    rw [hunordered, hf.recorded hrests, hu]
  | some u =>
    obtain ⟨xs, ys, hps, hfirst⟩ := Candidate.exists_firstUnordered hu
    have hfate := hpruned.first c' xs u ys htc hps hfirst
    by_cases hthins : p.Thins s
    · rw [if_pos ((thins_iff hc hu).mp hthins)] at hfate
      refine ⟨hsame ?_, fun hrests => absurd hthins hrests, fun _ => ⟨xs, u, ys, hps, hfirst, hfate.1⟩⟩
      rw [hfate.2, hf.cleared hthins]
    · rw [if_neg (mt (thins_iff hc hu).mpr hthins)] at hfate
      refine ⟨hsame ?_, fun _ => hfate.1, fun h => absurd h hthins⟩
      rw [hfate.2, hf.recorded hthins, hu]

theorem Finished.exists_select (hm : p.model = .standard) (hf : Finished p s) : ∃ t, (p.select s).result = .ok t := by
  obtain ⟨c, j, -, hmin, hj, -⟩ := hf.chosen
  exact exists_select_iff_choosesJoin.mpr ⟨c, j, hm ▸ hmin, hj⟩

theorem Finished.hasMinimalCheapest (hf : Finished p s) : s.hasMinimalCheapest := by
  obtain ⟨c, -, hc, hmin, -⟩ := hf.chosen
  exact Candidate.hasMinimalCheapest_iff.mpr (.of_minOn? hc hmin)

theorem Again.sublist (h : Again p s t) : t.paths.Sublist s.paths := by
  by_cases hthins : p.Thins s
  · obtain ⟨xs, u, ys, hps, -, hpaths⟩ := h.thinned hthins
    rw [hps, hpaths]
    exact (List.sublist_cons_self u ys).append_left xs
  · rw [h.kept hthins]

theorem Finished.step (hm : p.model = .standard) (hf : Finished p s) (ht : (p.select s).result = .ok t) :
    Again p s t ∧ Finished p t := by
  have hagain := hf.again hm ht
  exact ⟨hagain, finished_of_select hm ht (hf.ids.sublist (hagain.sublist.map Path.id))⟩

theorem After.refl (hf : Finished p s) : After p 0 s s where
  same := rfl
  sublist := List.Sublist.refl _
  sorted := rfl
  cheapest c hc := by
    obtain ⟨c', -, hc', hmin, -⟩ := hf.chosen
    rw [hc, Option.some.injEq] at hc'
    exact hc' ▸ List.minOn?_mem hmin
  fewer _ := Nat.le_refl _

theorem After.step (h : After p n s t) (ht : Again p t t') : After p (n + 1) s t' := by
  have hsame : t' = { s with paths := t'.paths } := by
    rw [ht.same, h.same]
  by_cases hthins : p.Thins t
  · obtain ⟨xs, u, ys, hps, hfirst, hpaths⟩ := ht.thinned hthins
    refine ⟨hsame, ht.sublist.trans h.sublist, ?_, ?_, ?_⟩
    · rw [← h.sorted, hps, hpaths, List.filter_append, List.filter_append, List.filter_cons_of_neg]
      simpa using hfirst.unordered
    · intro c hc
      rw [hpaths]
      apply mem_append_of_ne (hps ▸ h.cheapest c hc)
      -- the list only thins when the cheapest path is a sorted one
      rintro rfl
      apply hthins.2.2.1 c _ hfirst.unordered
      rw [h.same]
      exact hc
    · intro _
      have hfewer := h.fewer hthins
      rw [hps, List.countP_append, List.countP_cons_of_pos hfirst.unordered] at hfewer
      rw [hpaths, List.countP_append]
      omega
  · have htt : t' = t := by
      rw [ht.same, ht.kept hthins]
    rw [htt]
    exact ⟨h.same, h.sublist, h.sorted, h.cheapest, fun hthins' => absurd hthins' hthins⟩

theorem After.rests (h : After p n s t) (hn : s.paths.countP Path.isUnordered ≤ n) : ¬ p.Thins t := by
  intro hthins
  have hpos : 0 < t.paths.countP Path.isUnordered := List.countP_pos_iff.mpr hthins.2.2.2
  have hfewer := h.fewer hthins
  omega

theorem grouped_self (hn : (rs.map Candidate.bases).Nodup) : Grouped p rs rs where
  bases := (eraseDups_eq_self hn).symm
  survives s hs := ⟨s, [], filter_key_of_mem hn hs, Survives.gather (.inl rfl)⟩

namespace FinishedLevel

theorem of_finish (hm : p.model = .standard) (hok : (p.finish rs).result = .ok out)
    (hids : ∀ s ∈ out, (s.paths.map Path.id).Nodup) : FinishedLevel p out := by
  obtain ⟨kept, hkept, hout⟩ := Run.bind_ok_iff.mp hok
  have hselect := selectLevel_ok hout
  constructor
  · have hgrouped : Grouped p rs kept := resolve_ok_iff_grouped.mp (dedup_ok hkept)
    rw [mapM_select_bases (Run.mapM_ok_iff.mpr hselect), hgrouped.bases]
    exact nodup_eraseDups _
  · intro s hs
    obtain ⟨r, -, hr⟩ := Run.exists_of_mem_right hselect hs
    exact finished_of_select hm hr (hids s hs)

theorem dedup (h : FinishedLevel p rs) : (p.dedup rs).result = .ok rs := by
  rw [dedup_result, resolve_ok_iff_grouped.mpr (grouped_self h.bases)]
  exact checked_eq_ok h.bases fun s hs _ => (h.finished s hs).hasMinimalCheapest

theorem finish (hm : p.model = .standard) (h : FinishedLevel p rs) :
    ∃ out, (p.finish rs).result = .ok out ∧ FinishedLevel p out ∧ List.Forall₂ (Again p) rs out := by
  obtain ⟨out, hout⟩ := Run.exists_mapM_ok_iff.mpr fun s hs => (h.finished s hs).exists_select hm
  have hstep : List.Forall₂ (fun s t => Again p s t ∧ Finished p t) rs out := by
    apply List.Forall₂.imp _ ((List.forall₂_and_left rs out).mpr ⟨h.finished, Run.mapM_ok_iff.mp hout⟩)
    rintro s t ⟨hs, hst⟩
    exact hs.step hm hst
  refine ⟨out, (finish_of_dedup hm h.dedup).trans hout, ⟨?_, ?_⟩, hstep.imp fun s t hst => hst.1⟩
  · exact mapM_select_bases hout ▸ h.bases
  · intro t ht
    obtain ⟨s, -, -, hft⟩ := Run.exists_of_mem_right hstep ht
    exact hft

theorem rounds (hm : p.model = .standard) (h : FinishedLevel p rs) (n : Nat) :
    ∃ later, (p.rounds rs n).result = .ok later ∧ FinishedLevel p later ∧ List.Forall₂ (After p n) rs later := by
  induction n with
  | zero => exact ⟨rs, rfl, h, List.forall₂_same.mpr fun s hs => .refl (h.finished s hs)⟩
  | succ n ih =>
    obtain ⟨later, hlater, hfinished, hafter⟩ := ih
    obtain ⟨next, hnext, hfinished', hagain⟩ := hfinished.finish hm
    refine ⟨next, Run.bind_ok_iff.mpr ⟨later, hlater, hnext⟩, hfinished', ?_⟩
    exact Run.forall₂_trans (fun _ _ _ hst htt => hst.step htt) hafter hagain

theorem finish_eq (hm : p.model = .standard) (h : FinishedLevel p rs) (hrests : ∀ s ∈ rs, ¬ p.Thins s) :
    (p.finish rs).result = .ok rs := by
  obtain ⟨out, hout, -, hagain⟩ := h.finish hm
  have hsame : List.Forall₂ (· = ·) rs out := by
    apply List.Forall₂.imp _ ((List.forall₂_and_left rs out).mpr ⟨hrests, hagain⟩)
    rintro s t ⟨hs, hst⟩
    rw [hst.same, hst.kept hs]
  rw [List.forall₂_eq_eq_eq] at hsame
  rw [hout, hsame]

end FinishedLevel

/-- A round takes at most one unordered path from each list. So a list is at rest after as many rounds as it has
unordered paths, and the level is when the last of its lists is. -/
theorem finish_again_settles (hm : p.model = .standard) (hok : (p.finish rs).result = .ok out)
    (hids : ∀ s ∈ out, (s.paths.map Path.id).Nodup) :
    (∃ again, (p.finish out).result = .ok again ∧ List.Forall₂ (Again p) out again) ∧
    ∀ n, ∃ later, (p.rounds out n).result = .ok later ∧
      List.Forall₂ (fun s t => After p n s t ∧ (s.paths.countP Path.isUnordered ≤ n → ¬ p.Thins t)) out later ∧
      ((∀ s ∈ out, s.paths.countP Path.isUnordered ≤ n) → (p.finish later).result = .ok later) := by
  have hfinished : FinishedLevel p out := .of_finish hm hok hids
  constructor
  · obtain ⟨again, hagain, -, hstep⟩ := hfinished.finish hm
    exact ⟨again, hagain, hstep⟩
  · intro n
    obtain ⟨later, hlater, hlast, hafter⟩ := hfinished.rounds hm n
    refine ⟨later, hlater, hafter.imp fun s t hst => ⟨hst, hst.rests⟩, ?_⟩
    intro hcount
    apply hlast.finish_eq hm
    intro t ht
    obtain ⟨s, hs, hst⟩ := Run.exists_of_mem_right hafter ht
    exact hst.rests (hcount s hs)

end Pruner

def Sample.spareHeapJoin : Path := join ⟨12⟩ ⟨9⟩ .unordered (scan ⟨1⟩ 1 ⟨1⟩ .unordered) (scan ⟨2⟩ 2 ⟨1⟩ .unordered)

def Sample.crowded : Candidate := candidate [1, 2] [sortedJoin, heapJoin, spareHeapJoin]

def Sample.thinned : Candidate := { chosen with paths := [sortedJoin, heapJoin] }

theorem Pruner.finish_again_settles_crowded :
    (({} : Pruner).finish [Sample.crowded]).result = .ok [Sample.thinned] ∧
    (∀ s ∈ [Sample.thinned], (s.paths.map Path.id).Nodup) ∧
    ∃ t, (({} : Pruner).rounds [Sample.thinned] 1).result = .ok [t] ∧ Sample.sortedJoin ∈ t.paths ∧
      (({} : Pruner).finish [t]).result = .ok [t] := by
  have hids : ∀ s ∈ [Sample.thinned], (s.paths.map Path.id).Nodup := by decide
  have hfinish : (({} : Pruner).finish [Sample.crowded]).result = .ok [Sample.thinned] := rfl
  obtain ⟨-, hrounds⟩ := finish_again_settles rfl hfinish hids
  obtain ⟨later, hlater, hafter, hrest⟩ := hrounds 1
  cases hafter with
  | cons hst hnil =>
    cases hnil
    exact ⟨hfinish, hids, _, hlater, hst.1.cheapest Sample.sortedJoin rfl, hrest (by decide)⟩

end JoinLevel
