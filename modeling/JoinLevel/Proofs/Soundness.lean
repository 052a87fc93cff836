import JoinLevel.Session
import JoinLevel.Proofs.Dominance
import JoinLevel.Proofs.Preservation

namespace JoinLevel

structure Candidate.Sound (options : Options) (r : Candidate) : Prop where
  unselected : r.cheapest = none → r.unordered = none
  cheapest : ∀ c, r.cheapest = some c →
    c ∈ r.paths ∧ (∀ q ∈ r.paths, c.cost ≤ q.cost) ∧ ∃ j, c.join? = some j ∧ r.size = j.estimate
  unordered : ∀ u, r.unordered = some u →
    u ∈ r.paths ∧ u.isUnordered ∧ (∀ q ∈ r.paths, q.isUnordered → u.cost ≤ q.cost) ∧
      (r.pruneable → options.pruneUnordered → r.cheapest = some u)

/-- The levels that can be made of the candidates in `start`. -/
inductive Reached (p : Pruner) (start : List Candidate) : List Candidate → Prop
  | start : Reached p start start
  | pick {rs out : List Candidate} : Reached p start rs → out ⊆ rs → Reached p start out
  | append {rs ss : List Candidate} : Reached p start rs → Reached p start ss → Reached p start (rs ++ ss)
  | run (task : LevelTask) {rs out : List Candidate} :
      Reached p start rs → (task.apply p rs).result = .ok out → Reached p start out
  | mergeBatches {first second out : List Candidate} :
      Reached p start first → Reached p start second →
      (p.mergeBatches first second).result = .ok out → Reached p start out

namespace Pruner

variable {p : Pruner} {ps : List Path} {r d : Candidate} {c u : Path} {j : Join} {size : Float}

theorem choose_unordered (hid : Identified ps) (hr : r.paths ⊆ ps)
    (h : (p.choose r c size).unordered = some u) : p.beaten? r c = none ∧ r.cheapestUnordered? = some u := by
  simp only [choose] at h
  cases hb : p.beaten? r c with
  | some v => simp [hb] at h
  | none =>
    simp only [hb, Option.bind_eq_some_iff] at h
    obtain ⟨v, hv, hvu⟩ := h
    have hvr : v ∈ r.paths := (Candidate.cheapestUnordered?_mem hv).1
    obtain rfl : v = u := by simpa only [hid.find_id hr hvr, Option.some.injEq] using hvu
    exact ⟨rfl, hv⟩

theorem choose_sound (hm : p.model = .standard) (hid : Identified ps) (hr : r.paths ⊆ ps)
    (hc : p.model.cheapest? r.paths = some c) (hj : c.join? = some j) :
    (p.choose r c (p.model.joinSize j)).Sound p.options := by
  rw [hm] at hc ⊢
  have hmin : r.paths.minOn? Path.cost = some c := hc
  have hcr : c ∈ r.paths := List.minOn?_mem hmin
  refine ⟨?_, ?_, ?_⟩
  · intro h
    cases h
  · intro c' hc'
    cases hc'
    refine ⟨chosen_mem_choose_paths hcr, ?_, j, hj, rfl⟩
    exact fun q hq => cost_le_of_minOn? hmin (choose_paths_subset hq)
  · intro u hu
    obtain ⟨hb, hu⟩ := choose_unordered hid hr hu
    obtain ⟨hur, hun⟩ := Candidate.cheapestUnordered?_mem hu
    simp only [choose, hb]
    refine ⟨hur, hun, fun q => Candidate.cheapestUnordered?_le hu, fun hpr hopt => ?_⟩
    -- a path of another identity would have been dropped
    have huc : u.id = c.id := by
      by_contra hne
      have hbeaten := beaten?_eq_some_iff.mpr ⟨hu, hne, hpr, hopt⟩
      rw [hb] at hbeaten
      cases hbeaten
    rw [hid u (hr hur) c (hr hcr) huc]

theorem absorb_sound {options : Options} (hr : r.Sound options) (hsel : r.isSelected = false) :
    (p.absorb r d).Sound options := by
  have hc : r.cheapest = none := by simpa [Candidate.isSelected] using hsel
  have hu := hr.unselected hc
  refine ⟨?_, ?_, ?_⟩ <;> simp [absorb, hc, hu]

theorem sound_preserved (hm : p.model = .standard) (hp : p.policy.Selective) (hid : Identified ps) :
    Preserved p (fun r => r.paths ⊆ ps) (fun r => r.paths ⊆ ps ∧ r.Sound p.options) where
  weaken _ h := h.1
  absorb _ _ := absorb_paths_subset hp
  absorb_unselected _ _ hr hd hsel := ⟨absorb_paths_subset hp hr.1 hd, absorb_sound hr.2 hsel⟩
  select r s hr hs := by
    refine ⟨List.Subset.trans (select_paths_subset hs) hr, ?_⟩
    obtain ⟨c, j, hc, hj, rfl⟩ := select_ok_iff.mp hs
    exact choose_sound hm hid hr hc hj

end Pruner

namespace Preserved

variable {p : Pruner} {W I : Candidate → Prop} {start rs out : List Candidate}

theorem run (hp : Preserved p W I) (task : LevelTask) (hrs : ∀ r ∈ rs, I r)
    (hok : (task.apply p rs).result = .ok out) : ∀ s ∈ out, I s := by
  cases task with
  | deduplicate => exact hp.dedup hrs hok
  | select => exact hp.selectLevel hrs hok
  | finish => exact hp.finish hrs hok
  | dropExhausted =>
    cases hok
    exact fun r hr => hrs r (List.mem_of_mem_filter hr)

theorem reached (hp : Preserved p W I) (hstart : ∀ r ∈ start, I r) (h : Reached p start rs) : ∀ r ∈ rs, I r := by
  induction h with
  | start => exact hstart
  | pick _ hsub ih => exact fun r hr => ih r (hsub hr)
  | append _ _ ih₁ ih₂ => exact fun r hr => (List.mem_append.mp hr).elim (ih₁ r) (ih₂ r)
  | run task _ hok ih => exact hp.run task ih hok
  | mergeBatches _ _ hok ih₁ ih₂ => exact hp.mergeBatches ih₁ ih₂ hok

end Preserved

theorem Candidate.sound_of_start {options : Options} {start : List Candidate}
    (h : ∀ r ∈ start, r.cheapest = none ∧ r.unordered = none) :
    ∀ r ∈ start, r.paths ⊆ start.flatMap Candidate.paths ∧ r.Sound options := by
  intro r hr
  obtain ⟨hc, hu⟩ := h r hr
  refine ⟨fun q hq => List.mem_flatMap.mpr ⟨r, hr, hq⟩, ?_, ?_, ?_⟩ <;> simp [hc, hu]

theorem reached_sound {p : Pruner} {start rs : List Candidate} (hm : p.model = .standard)
    (hp : p.policy.Selective) (hstart : ∀ r ∈ start, r.cheapest = none ∧ r.unordered = none)
    (hid : Identified (start.flatMap Candidate.paths)) (h : Reached p start rs) :
    ∀ r ∈ rs, r.Sound p.options := by
  have hall : ∀ r ∈ rs, r.paths ⊆ start.flatMap Candidate.paths ∧ r.Sound p.options :=
    (Pruner.sound_preserved hm hp hid).reached (Candidate.sound_of_start hstart) h
  exact fun r hr => (hall r hr).2

theorem reached_sound_remerged : Reached {} Sample.offers [Sample.chosen] ∧ Sample.chosen.Sound {} := by
  have hrun : Reached {} Sample.offers [Sample.chosen] := .mergeBatches (.run .finish .start rfl) .start rfl
  refine ⟨hrun, reached_sound rfl MergePolicy.dominance_selective ?_ Sample.offers_identified hrun _ (by simp)⟩
  intro r hr
  simp only [Sample.offers, List.mem_cons, List.not_mem_nil, or_false] at hr
  rcases hr with rfl | rfl <;> exact ⟨rfl, rfl⟩

end JoinLevel
