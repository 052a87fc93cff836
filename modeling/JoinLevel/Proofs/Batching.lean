import JoinLevel.Proofs.BatchMerge
import JoinLevel.Proofs.Covering
import JoinLevel.Proofs.Pooling

namespace JoinLevel

/-- Consecutive batches of one level, and the order in which neighbouring results are merged. -/
inductive Batches where
  | batch (rs : List Candidate)
  | merge (first second : Batches)

namespace Batches

variable {p : Pruner} {first second : Batches} {each : LevelPlan → LevelPlan} {rs ss : List Candidate}

def candidates : Batches → List Candidate
  | batch rs => rs
  | merge first second => first.candidates ++ second.candidates

def plan (each : LevelPlan → LevelPlan) : Batches → LevelPlan
  | batch rs => each (.given rs)
  | merge first second => .mergeBatches (first.plan each) (second.plan each)

theorem run_merge (hfirst : ((first.plan each).run p).result = .ok rs)
    (hsecond : ((second.plan each).run p).result = .ok ss) :
    (((merge first second).plan each).run p).result = (p.mergeBatches rs ss).result := by
  simp only [plan, LevelPlan.run, Run.result_bind, hfirst, hsecond, Except.bind]

theorem run_dedup_pooled {t : Batches} (hp : p.policy = .dominance)
    (ht : ∀ r ∈ t.candidates, r.cheapest = none ∧ r.unordered = none) :
    ((t.plan .dedup).run p).result = .ok (pooled t.candidates) := by
  induction t with
  | batch rs => exact Pruner.dedup_eq_pooled hp ht
  | merge first second ih₁ ih₂ =>
    obtain ⟨hfirst, hsecond⟩ := List.forall_mem_append.mp ht
    have hpooled : ∀ s ∈ pooled first.candidates ++ pooled second.candidates,
        s.cheapest = none ∧ s.unordered = none :=
      List.forall_mem_append.mpr
        ⟨forall_mem_pooled (fun _ _ h => h) hfirst, forall_mem_pooled (fun _ _ h => h) hsecond⟩
    rw [run_merge (ih₁ hfirst) (ih₂ hsecond), Pruner.mergeBatches_result,
      ← Pruner.resolve_foldl_receive_append (nodup_pooled _) (nodup_pooled _), ← Pruner.dedup_result,
      Pruner.dedup_eq_pooled hp hpooled, pooled_append]
    rfl

theorem run_dedup_eq_dedup {t : Batches} (hp : p.policy = .dominance)
    (ht : ∀ r ∈ t.candidates, r.cheapest = none ∧ r.unordered = none) :
    ∃ out, ((t.plan .dedup).run p).result = .ok out ∧ (p.dedup t.candidates).result = .ok out :=
  ⟨pooled t.candidates, run_dedup_pooled hp ht, Pruner.dedup_eq_pooled hp ht⟩

end Batches

def Sample.batches : Batches :=
  .merge (.batch [candidate [1, 2] [heapJoin]])
    (.merge (.batch [candidate [2, 1] [sortedJoin]]) (.batch [candidate [1, 3] [heapJoin]]))

theorem Batches.run_dedup_eq_dedup_nested : ((Sample.batches.plan .dedup).run {}).result =
    .ok [Sample.candidate [1, 2] [Sample.heapJoin, Sample.sortedJoin], Sample.candidate [1, 3] [Sample.heapJoin]] := by
  have hunselected : ∀ r ∈ Sample.batches.candidates, r.cheapest = none ∧ r.unordered = none := by
    simp [Sample.batches, candidates, Sample.candidate]
  obtain ⟨out, hbatches, hdedup⟩ := run_dedup_eq_dedup (p := {}) rfl hunselected
  rw [hbatches, ← hdedup]
  rfl

end JoinLevel
