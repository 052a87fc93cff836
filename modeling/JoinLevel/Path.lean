import JoinLevel.Bases
import JoinLevel.Cost

namespace JoinLevel

structure Column where
  base : BaseId
  index : UInt32
  deriving DecidableEq

namespace Column

instance : Ord Column := ⟨fun c d => (compare c.base d.base).then (compare c.index d.index)⟩

instance : ToString Column := ⟨fun c => "#" ++ toString c.base ++ "." ++ toString c.index⟩

end Column

inductive Direction where
  | asc
  | desc
  deriving DecidableEq

instance : ToString Direction := ⟨fun | .asc => "asc" | .desc => "desc"⟩

structure SortKey where
  column : Column
  direction : Direction
  deriving DecidableEq

instance : ToString SortKey := ⟨fun k => toString k.column ++ " " ++ toString k.direction⟩

/-- Sorted on no keys is not the same as unordered. -/
inductive OutputOrder where
  | unordered
  | sorted (keys : List SortKey)
  deriving DecidableEq

namespace OutputOrder

instance : Inhabited OutputOrder := ⟨unordered⟩

instance : ToString OutputOrder :=
  ⟨fun
    | unordered => "unordered"
    | sorted keys => "[" ++ ", ".intercalate (keys.map toString) ++ "]"⟩

end OutputOrder

structure PathId where
  number : Nat
  deriving DecidableEq

instance : ToString PathId := ⟨fun i => "P" ++ toString i.number⟩

inductive JoinMethod where
  | nestLoop
  | mergeJoin
  | hashJoin
  deriving DecidableEq

instance : ToString JoinMethod :=
  ⟨fun | .nestLoop => "NestLoop" | .mergeJoin => "MergeJoin" | .hashJoin => "HashJoin"⟩

structure Clause where
  outer : Column
  inner : Column
  selectivity : Float

inductive Path where
  | scan (id : PathId) (order : OutputOrder) (cost : Cost) (base : BaseId) (rows : Float)
  | join (id : PathId) (order : OutputOrder) (cost : Cost) (method : JoinMethod)
      (outer inner : Path) (outerRows innerRows : Float) (clauses : List Clause)

structure Join where
  method : JoinMethod
  outer : Path
  inner : Path
  outerRows : Float
  innerRows : Float
  clauses : List Clause

namespace Path

def id : Path → PathId
  | scan i _ _ _ _ => i
  | join i _ _ _ _ _ _ _ _ => i

def order : Path → OutputOrder
  | scan _ o _ _ _ => o
  | join _ o _ _ _ _ _ _ _ => o

def cost : Path → Cost
  | scan _ _ c _ _ => c
  | join _ _ c _ _ _ _ _ _ => c

def isUnordered (p : Path) : Bool := p.order = .unordered

def join? : Path → Option Join
  | scan .. => none
  | join _ _ _ m o i r s cs => some ⟨m, o, i, r, s, cs⟩

def leftmost : Path → BaseId
  | scan _ _ _ b _ => b
  | join _ _ _ _ o _ _ _ _ => o.leftmost

def head : Path → String
  | scan i _ _ b _ => toString i ++ " Scan " ++ toString b
  | join i _ _ m o n _ _ _ =>
    toString i ++ " " ++ toString m ++ " " ++ toString o.id ++ " " ++ toString n.id

instance : ToString Path :=
  ⟨fun p => "(" ++ p.head ++ " cost=" ++ toString p.cost ++ " order=" ++ toString p.order ++ ")"⟩

end Path
end JoinLevel
