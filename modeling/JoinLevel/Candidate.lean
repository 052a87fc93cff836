import JoinLevel.Path

namespace JoinLevel

structure Edge where
  target : BaseSet
  clauses : List Clause := []
  inactive : Bool := false

/-- A list of edges with one of them held by its position, to be read or changed in place. -/
structure EdgeSlot where
  edges : List Edge
  index : Fin edges.length

namespace Edge

def amend (e : Edge) (clauses : List Clause) (inactive : Option Bool) : Edge :=
  { e with clauses := e.clauses ++ clauses, inactive := inactive.getD e.inactive }

def slot (target : BaseSet) (es : List Edge) : EdgeSlot :=
  if h : es.findIdx (·.target = target) < es.length then ⟨es, ⟨es.findIdx (·.target = target), h⟩⟩
  else ⟨es ++ [{ target := target }], ⟨es.length, by simp⟩⟩

end Edge

namespace EdgeSlot

def edge (s : EdgeSlot) : Edge := s.edges.get s.index

def amend (s : EdgeSlot) (clauses : List Clause) (inactive : Option Bool) : List Edge :=
  s.edges.set s.index (s.edge.amend clauses inactive)

end EdgeSlot

def Edge.amendIn (target : BaseSet) (clauses : List Clause) (inactive : Option Bool) (es : List Edge) : List Edge :=
  (slot target es).amend clauses inactive

/-- An edge into the joined bases has been used up and is not passed on. -/
def inheritEdges (bases : BaseSet) (edges : List Edge) : List Edge :=
  (edges.filter fun e => !e.target.isSubset bases).foldl
    (fun es e => Edge.amendIn e.target e.clauses none es) []

structure Candidate where
  bases : BaseSet
  paths : List Path := []
  cheapest : Option Path := none
  unordered : Option Path := none
  /-- Whether an unordered path may go once a cheaper path is known. -/
  pruneable : Bool := true
  size : Float := 0
  edges : List Edge := []

def lists (ps : List Path) (p : Path) : Bool := ps.any (·.id = p.id)

structure JoinPlan where
  id : PathId
  order : OutputOrder
  method : JoinMethod
  extra : Cost

def JoinPlan.path (plan : JoinPlan) (outer inner : Candidate) (clauses : List Clause) (o i : Path) : Path :=
  .join plan.id plan.order (o.cost + i.cost + plan.extra) plan.method o i outer.size inner.size clauses

namespace Candidate

def cheapestUnordered? (r : Candidate) : Option Path := (r.paths.filter Path.isUnordered).minOn? Path.cost

def edgeTo? (r : Candidate) (target : BaseSet) : Option Edge := r.edges.find? (·.target = target)

def edgeOrNew (r : Candidate) (target : BaseSet) : Edge := (Edge.slot target r.edges).edge

def amendEdge (r : Candidate) (target : BaseSet) (clauses : List Clause) (inactive : Option Bool) :
    Candidate :=
  { r with edges := Edge.amendIn target clauses inactive r.edges }

/-- A candidate without edges may still be joined with anything. -/
def isExhausted (r : Candidate) : Bool := !r.edges.isEmpty && r.edges.all Edge.inactive

def isSelected (r : Candidate) : Bool := r.cheapest.isSome

def hasMinimalCheapest (r : Candidate) : Bool :=
  r.cheapest.any fun c => lists r.paths c && r.paths.all fun p => c.cost ≤ p.cost

def join? (outer inner : Candidate) (clauses : List Clause) (plans : List JoinPlan) (pruneable : Bool) :
    Option Candidate :=
  match outer.cheapest, inner.cheapest with
  | some o, some i =>
    let bases := outer.bases ∪ inner.bases
    some {
      bases
      paths := plans.map fun plan => plan.path outer inner clauses o i
      pruneable
      edges := inheritEdges bases (outer.edges ++ inner.edges) }
  | _, _ => none

instance : ToString Candidate :=
  ⟨fun r =>
    let cheapest := match r.cheapest with
      | some c => " cheapest=" ++ toString c.id
      | none => ""
    "(Rel " ++ toString r.bases ++ " paths=" ++ toString r.paths.length ++
      " size=" ++ shortestText r.size ++ cheapest ++ ")"⟩

end Candidate
end JoinLevel
