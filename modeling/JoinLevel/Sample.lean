import JoinLevel.Pruner

namespace JoinLevel

namespace Sample

def sortedOn (base : BaseId) (column : UInt32) : OutputOrder := .sorted [⟨⟨base, column⟩, .asc⟩]

def scan (id : PathId) (base : BaseId) (cost : Cost) (order : OutputOrder) : Path :=
  .scan id order cost base 100

def clause (outer inner : Path) : Clause := ⟨⟨outer.leftmost, 0⟩, ⟨inner.leftmost, 0⟩, 0.25⟩

def join (id : PathId) (cost : Cost) (order : OutputOrder) (outer inner : Path) : Path :=
  .join id order cost .hashJoin outer inner 100 40 [clause outer inner]

def candidate (ids : List BaseId) (paths : List Path) : Candidate := { bases := .ofList ids, paths }

def heapJoin : Path := join ⟨10⟩ ⟨10⟩ .unordered (scan ⟨1⟩ 1 ⟨1⟩ .unordered) (scan ⟨2⟩ 2 ⟨1⟩ .unordered)

def sortedJoin : Path := join ⟨11⟩ ⟨8⟩ (sortedOn 1 0) (scan ⟨2⟩ 2 ⟨1⟩ .unordered) (scan ⟨1⟩ 1 ⟨1⟩ .unordered)

def offers : List Candidate := [candidate [1, 2] [heapJoin], candidate [2, 1] [sortedJoin]]

def chosen : Candidate :=
  { candidate [1, 2] [sortedJoin] with
    cheapest := some sortedJoin
    size := (sortedJoin.join?.map Join.estimate).getD 0 }

end Sample

/-! Models and policies that stand in for those a caller may bring along. -/

def Join.inputRows (j : Join) : Float := j.outerRows + j.innerRows

namespace CostModel

def lastMinimal : CostModel := ⟨fun ps => ps.reverse.minOn? Path.cost, Join.inputRows⟩

def first : CostModel := ⟨List.head?, Join.inputRows⟩

def priciest : CostModel := ⟨List.maxOn? Path.cost, Join.inputRows⟩

def never : CostModel := ⟨fun _ => none, Join.inputRows⟩

end CostModel

namespace MergePolicy

def concat : MergePolicy where
  merge _ old new := old ++ new

def newFirst : MergePolicy where
  merge _ old new := new ++ old

def newOnly : MergePolicy where
  merge _ _ new := new

def dropAll : MergePolicy where
  merge _ _ _ := []

def bySelection : MergePolicy where
  merge r old new := if r.isSelected then old else r.paths ++ new

end MergePolicy
end JoinLevel
