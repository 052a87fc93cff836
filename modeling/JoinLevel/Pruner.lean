import JoinLevel.Candidate
import JoinLevel.Event

namespace JoinLevel

/-- The product is taken from the left; whatever is not above zero counts as zero. -/
def Join.estimate (j : Join) : Float :=
  let share := j.clauses.foldl (fun s c => s * c.selectivity) 1.0
  let rows := (j.outerRows * j.innerRows * share).ceil
  if 0 < rows then rows else 0

structure CostModel where
  cheapest? : List Path → Option Path
  joinSize : Join → Float

def CostModel.standard : CostModel := ⟨List.minOn? Path.cost, Join.estimate⟩

structure MergePolicy where
  merge : Candidate → List Path → List Path → List Path
  events : Candidate → List Path → List Path → List Event := fun _ _ _ => []

def contend : List Path → Path → List Path
  | [], p => [p]
  | q :: qs, p =>
    if q.order = p.order then (if p.cost < q.cost then p else q) :: qs else q :: contend qs p

def contest (bases : BaseSet) (kept : List Path) (p : Path) : List Event :=
  match kept.find? (·.order = p.order) with
  | some q => if p.cost < q.cost then [.replaced bases q.id p.id] else [.dominated bases p.id q.id]
  | none => []

def contests (bases : BaseSet) : List Path → List Path → List Event
  | _, [] => []
  | kept, p :: ps => contest bases kept p ++ contests bases (contend kept p) ps

/-- For every order the cheapest path, and of equally cheap ones the first. -/
def MergePolicy.dominance : MergePolicy where
  merge _ old new := (old ++ new).foldl contend []
  events r old new := contests r.bases [] (old ++ new)

structure Options where
  pruneUnordered : Bool := true
  verify : Bool := false
  deriving DecidableEq

structure Pruner where
  model : CostModel := .standard
  policy : MergePolicy := .dominance
  options : Options := {}

end JoinLevel
