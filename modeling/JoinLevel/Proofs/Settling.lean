import JoinLevel.Level
import JoinLevel.Sample
import JoinLevel.Proofs.CostOrder
import JoinLevel.Proofs.Results

namespace JoinLevel

section Listed

variable {xs ys : List Path} {c u : Path}

theorem mem_append_of_ne (hc : c ∈ xs ++ u :: ys) (hne : c ≠ u) : c ∈ xs ++ ys := by simpa [hne] using hc

theorem find?_id_append_cons (h : u.id ∉ xs.map Path.id) : (xs ++ u :: ys).find? (·.id = u.id) = some u := by
  rw [List.find?_eq_some_iff_append]
  refine ⟨decide_eq_true rfl, xs, ys, rfl, ?_⟩
  intro x hx
  simpa using fun hxu : x.id = u.id => h (hxu ▸ List.mem_map_of_mem hx)

theorem eraseP_id_append_cons (h : u.id ∉ xs.map Path.id) : (xs ++ u :: ys).eraseP (·.id = u.id) = xs ++ ys := by
  have hxs : ∀ x ∈ xs, ¬ decide (x.id = u.id) = true := by
    intro x hx
    simpa using fun hxu : x.id = u.id => h (hxu ▸ List.mem_map_of_mem hx)
  rw [List.eraseP_append_right _ hxs, List.eraseP_cons_of_pos (by simp)]

theorem exists_first_id {ps : List Path} {i : PathId} (h : i ∈ ps.map Path.id) :
    ∃ xs u ys, ps = xs ++ u :: ys ∧ u.id = i ∧ u.id ∉ xs.map Path.id := by
  have hfind : (ps.find? (·.id = i)).isSome := by simpa using h
  obtain ⟨u, hu⟩ := Option.isSome_iff_exists.mp hfind
  obtain ⟨hui, xs, ys, hps, hxs⟩ := List.find?_eq_some_iff_append.mp hu
  have hui : u.id = i := of_decide_eq_true hui
  refine ⟨xs, u, ys, hps, hui, ?_⟩
  intro hmem
  obtain ⟨x, hx, hxu⟩ := List.mem_map.mp hmem
  simpa [hxu, hui] using hxs x hx

end Listed

namespace CostModel

def Selective (m : CostModel) : Prop := ∀ ps c, m.cheapest? ps = some c → c ∈ ps

theorem standard_selective : standard.Selective := fun _ _ h => List.minOn?_mem h

theorem lastMinimal_selective : lastMinimal.Selective :=
  fun _ _ h => List.mem_reverse.mp (List.minOn?_mem h)

end CostModel

namespace Pruner

variable {p : Pruner} {r s : Candidate} {designated : Option PathId} {i : PathId} {run : Run Path} {c u : Path}
  {xs ys : List Path}

/-- What is left of `r` when it is settled, and how the step ends. -/
inductive Settles (p : Pruner) (r : Candidate) : Option PathId → Candidate → Run Path → Prop
  | noPaths {designated : Option PathId} (hc : p.model.cheapest? r.paths = none) :
      Settles p r designated r (.fail (.noPaths r.bases))
  | unknown {c : Path} {i : PathId} (hc : p.model.cheapest? r.paths = some c) (hi : i ∉ r.paths.map Path.id) :
      Settles p r (some i) { r with cheapest := some c } (.fail (.unknownUnordered r.bases i))
  | undesignated {c : Path} (hc : p.model.cheapest? r.paths = some c) :
      Settles p r none { r with cheapest := some c, unordered := none } (pure c)
  | removed {c u : Path} {xs ys : List Path} (hc : p.model.cheapest? r.paths = some c)
      (hps : r.paths = xs ++ u :: ys) (hfirst : u.id ∉ xs.map Path.id)
      (hgives : u.id ≠ c.id ∧ r.pruneable ∧ p.options.pruneUnordered) :
      Settles p r (some u.id) { r with paths := xs ++ ys, cheapest := some c, unordered := none }
        ⟨[.unorderedPruned r.bases u.id u.cost c.id], .ok c⟩
  | kept {c u : Path} {xs ys : List Path} (hc : p.model.cheapest? r.paths = some c)
      (hps : r.paths = xs ++ u :: ys) (hfirst : u.id ∉ xs.map Path.id)
      (hstays : ¬ (u.id ≠ c.id ∧ r.pruneable ∧ p.options.pruneUnordered)) :
      Settles p r (some u.id) { r with cheapest := some c, unordered := some u } (pure c)

theorem settle_noPaths (hc : p.model.cheapest? r.paths = none) :
    p.settle r designated = (r, .fail (.noPaths r.bases)) := by
  simp only [settle, hc]

theorem settle_undesignated (hc : p.model.cheapest? r.paths = some c) :
    p.settle r none = ({ r with cheapest := some c, unordered := none }, pure c) := by
  simp only [settle, hc]

theorem settle_unknown (hc : p.model.cheapest? r.paths = some c) (hi : i ∉ r.paths.map Path.id) :
    p.settle r (some i) = ({ r with cheapest := some c }, .fail (.unknownUnordered r.bases i)) := by
  have hfind : r.paths.find? (·.id = i) = none := by simpa using hi
  simp only [settle, hc, hfind]

theorem settle_listed (hc : p.model.cheapest? r.paths = some c) (hps : r.paths = xs ++ u :: ys)
    (hfirst : u.id ∉ xs.map Path.id) :
    p.settle r (some u.id) =
      if u.id ≠ c.id ∧ r.pruneable ∧ p.options.pruneUnordered then
        ({ r with paths := xs ++ ys, cheapest := some c, unordered := none },
          ⟨[.unorderedPruned r.bases u.id u.cost c.id], .ok c⟩)
      else ({ r with cheapest := some c, unordered := some u }, pure c) := by
  have hfind : r.paths.find? (·.id = u.id) = some u := hps ▸ find?_id_append_cons hfirst
  have herase : r.paths.eraseP (·.id = u.id) = xs ++ ys := hps ▸ eraseP_id_append_cons hfirst
  simp only [settle, hc, hfind, herase]

theorem settles_settle (p : Pruner) (r : Candidate) (designated : Option PathId) :
    Settles p r designated (p.settle r designated).1 (p.settle r designated).2 := by
  cases hc : p.model.cheapest? r.paths with
  | none =>
    rw [settle_noPaths hc]
    exact .noPaths hc
  | some c =>
    cases designated with
    | none =>
      rw [settle_undesignated hc]
      exact .undesignated hc
    | some i =>
      by_cases hi : i ∈ r.paths.map Path.id
      · obtain ⟨xs, u, ys, hps, rfl, hfirst⟩ := exists_first_id hi
        by_cases hgives : u.id ≠ c.id ∧ r.pruneable ∧ p.options.pruneUnordered
        · rw [settle_listed hc hps hfirst, if_pos hgives]
          exact .removed hc hps hfirst hgives
        · rw [settle_listed hc hps hfirst, if_neg hgives]
          exact .kept hc hps hfirst hgives
      · rw [settle_unknown hc hi]
        exact .unknown hc hi

theorem Settles.settle_eq (h : Settles p r designated s run) : p.settle r designated = (s, run) := by
  cases h with
  | noPaths hc => exact settle_noPaths hc
  | unknown hc hi => exact settle_unknown hc hi
  | undesignated hc => exact settle_undesignated hc
  | removed hc hps hfirst hgives => rw [settle_listed hc hps hfirst, if_pos hgives]
  | kept hc hps hfirst hstays => rw [settle_listed hc hps hfirst, if_neg hstays]

theorem Settles.untouched (h : Settles p r designated s run) :
    s = { r with paths := s.paths, cheapest := s.cheapest, unordered := s.unordered } := by
  cases h <;> rfl

theorem Settles.sublist (h : Settles p r designated s run) : s.paths.Sublist r.paths := by
  cases h with
  | removed hc hps =>
    rw [hps]
    exact (List.sublist_cons_self _ _).append_left _
  | noPaths | unknown | undesignated | kept => exact List.Sublist.refl _

theorem Settles.chosen_mem (hm : p.model.Selective) (h : Settles p r designated s run) (hok : run.result = .ok c) :
    c ∈ s.paths := by
  cases h with
  | noPaths | unknown => cases hok
  | undesignated hc | kept hc =>
    cases hok
    exact hm _ _ hc
  | removed hc hps hfirst hgives =>
    cases hok
    exact mem_append_of_ne (hps ▸ hm _ _ hc) fun hcu => hgives.1 (congrArg Path.id hcu.symm)

theorem settle_in_place (hm : p.model.Selective) (r : Candidate) (designated : Option PathId) (s : Candidate)
    (run : Run Path) :
    (p.settle r designated = (s, run) ↔ Settles p r designated s run) ∧
    (Settles p r designated s run →
      s = { r with paths := s.paths, cheapest := s.cheapest, unordered := s.unordered } ∧
      s.paths.Sublist r.paths ∧ ∀ c, run.result = .ok c → c ∈ s.paths) := by
  constructor
  · constructor
    · intro h
      have hsettles := settles_settle p r designated
      rwa [h] at hsettles
    · exact Settles.settle_eq
  · exact fun h => ⟨h.untouched, h.sublist, fun c => h.chosen_mem hm⟩

end Pruner

/-- It lists one path twice, and what it remembers was chosen from another list. -/
def Sample.stale : Candidate :=
  { candidate [1, 2] [heapJoin, sortedJoin, heapJoin] with
    cheapest := some heapJoin
    unordered := some (join ⟨12⟩ ⟨3⟩ .unordered heapJoin sortedJoin) }

theorem Pruner.settle_in_place_repeated : CostModel.lastMinimal.Selective ∧
    ∃ s run, ({ model := .lastMinimal } : Pruner).settle Sample.stale (some ⟨10⟩) = (s, run) ∧
      s.paths = [Sample.sortedJoin, Sample.heapJoin] ∧ s.cheapest = some Sample.sortedJoin ∧ s.unordered = none ∧
      run.result = .ok Sample.sortedJoin ∧ Sample.sortedJoin ∈ s.paths := by
  have hps : Sample.stale.paths = [] ++ Sample.heapJoin :: [Sample.sortedJoin, Sample.heapJoin] := rfl
  have hsettles := Settles.removed (p := { model := .lastMinimal }) rfl hps List.not_mem_nil (by decide)
  obtain ⟨hiff, hleft⟩ := settle_in_place (p := { model := .lastMinimal }) CostModel.lastMinimal_selective Sample.stale
    (some ⟨10⟩) _ _
  exact ⟨CostModel.lastMinimal_selective, _, _, hiff.mpr hsettles, rfl, rfl, rfl, rfl,
    (hleft hsettles).2.2 Sample.sortedJoin rfl⟩

end JoinLevel
