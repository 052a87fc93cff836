import JoinLevel.Pruner
import JoinLevel.Run

namespace JoinLevel

def firstRepeat {α : Type} [DecidableEq α] (seen : List α) : List α → Option α
  | [] => none
  | a :: as => if a ∈ seen then some a else firstRepeat (a :: seen) as

def lastOver? (b : BaseSet) (rs : List Candidate) : Option Candidate := rs.findRev? (·.bases = b)

def replaceLast (r : Candidate) : List Candidate → List Candidate
  | [] => []
  | q :: qs =>
    if q.bases = r.bases ∧ qs.all (·.bases ≠ r.bases) then r :: qs else q :: replaceLast r qs

structure Merging where
  kept : List Candidate := []
  /-- Where a cheapest path has to be found again, in the order this came up. -/
  pending : List BaseSet := []
  events : List Event := []

def dropExhausted (rs : List Candidate) : Run (List Candidate) := do
  let out := rs.filter (!·.isExhausted)
  Run.record ((rs.filter Candidate.isExhausted).map fun r => .exhaustedDropped r.bases r.edges.length)
  Run.log (.exhaustedPruned rs.length out.length)
  return out

namespace Pruner

def verifyDistinct (p : Pruner) (rs : List Candidate) : Run Unit :=
  if p.options.verify then
    match firstRepeat [] (rs.map Candidate.bases) with
    | some b => .fail (.duplicate b)
    | none => pure ()
  else pure ()

def verifyCheapest (p : Pruner) (rs : List Candidate) : Run Unit :=
  if p.options.verify then
    match rs.find? (!·.hasMinimalCheapest) with
    | some r => .fail (.cheapestNotMinimal r.bases)
    | none => .log (.verified rs.length)
  else pure ()

/-- Finds the cheapest path and settles whether the designated unordered path stays.
The candidate is given as the step leaves it, whether or not the step succeeds. -/
def settle (p : Pruner) (r : Candidate) (designated : Option PathId) : Candidate × Run Path :=
  match p.model.cheapest? r.paths with
  | none => (r, .fail (.noPaths r.bases))
  | some c =>
    match designated with
    | none => ({ r with cheapest := some c, unordered := none }, pure c)
    | some i =>
      match r.paths.find? (·.id = i) with
      | none => ({ r with cheapest := some c }, .fail (.unknownUnordered r.bases i))
      | some u =>
        if i ≠ c.id ∧ r.pruneable ∧ p.options.pruneUnordered then
          ({ r with paths := r.paths.eraseP (·.id = i), cheapest := some c, unordered := none },
            ⟨[.unorderedPruned r.bases u.id u.cost c.id], .ok c⟩)
        else ({ r with cheapest := some c, unordered := some u }, pure c)

def select (p : Pruner) (r : Candidate) : Run Candidate := do
  let (s, run) := p.settle { r with size := 0 } (r.cheapestUnordered?.map Path.id)
  let c ← run
  match c.join? with
  | none => .fail (.cheapestNotJoin r.bases c.id)
  | some j =>
    let size := p.model.joinSize j
    Run.log (.selected r.bases c size)
    return { s with size }

def selectLevel (p : Pruner) (rs : List Candidate) : Run (List Candidate) := do
  let out ← rs.mapM p.select
  Run.log (.levelSelected rs.length)
  p.verifyCheapest out
  return out

/-- The policy sees the candidate without its paths. What it drops is forgotten as a choice too. -/
def absorb (p : Pruner) (r d : Candidate) : Candidate :=
  let merged := p.policy.merge { r with paths := [] } r.paths d.paths
  { r with
    paths := merged
    cheapest := r.cheapest.filter (lists merged)
    unordered := r.unordered.filter (lists merged) }

def absorbEvents (p : Pruner) (task : MergeTask) (r d : Candidate) : List Event :=
  .merged task r.bases r.paths.length d.paths.length ::
    p.policy.events { r with paths := [] } r.paths d.paths

def receive (p : Pruner) (task : MergeTask) (m : Merging) (d : Candidate) : Merging :=
  match lastOver? d.bases m.kept with
  | none => { m with kept := m.kept ++ [d] }
  | some r =>
    { kept := replaceLast (p.absorb r d) m.kept
      pending := if r.isSelected || d.isSelected then m.pending ++ [d.bases] else m.pending
      events := m.events ++ p.absorbEvents task r d }

def reselect (p : Pruner) (rs : List Candidate) (b : BaseSet) : Run (List Candidate) :=
  match lastOver? b rs with
  | none => pure rs
  | some r => do return replaceLast (← p.select r) rs

def resolve (p : Pruner) (m : Merging) : Run (List Candidate) := do
  Run.record m.events
  m.pending.eraseDups.foldlM p.reselect m.kept

def verifyMerged (p : Pruner) (rs : List Candidate) : Run Unit := do
  p.verifyDistinct rs
  p.verifyCheapest (rs.filter Candidate.isSelected)

def dedup (p : Pruner) (rs : List Candidate) : Run (List Candidate) := do
  let out ← p.resolve (rs.foldl (p.receive .deduplicate) {})
  Run.log (.deduplicated rs.length out.length)
  p.verifyMerged out
  return out

def mergeBatches (p : Pruner) (first second : List Candidate) : Run (List Candidate) := do
  let (matched, extra) := second.partition fun d => first.any (·.bases = d.bases)
  let merged ← p.resolve (matched.foldl (p.receive .mergeBatches) { kept := first })
  let out := merged ++ extra
  Run.log (.batchesMerged first.length second.length out.length)
  p.verifyMerged out
  return out

def finish (p : Pruner) (rs : List Candidate) : Run (List Candidate) := p.dedup rs >>= p.selectLevel

end Pruner
end JoinLevel
