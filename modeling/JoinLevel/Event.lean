import JoinLevel.Path

namespace JoinLevel

inductive MergeTask where
  | deduplicate
  | mergeBatches
  deriving DecidableEq

instance : ToString MergeTask := ⟨fun | .deduplicate => "deduplicate" | .mergeBatches => "merge_batches"⟩

inductive Event where
  | merged (task : MergeTask) (bases : BaseSet) (paths dupPaths : Nat)
  | replaced (bases : BaseSet) (old new : PathId)
  | dominated (bases : BaseSet) (path winner : PathId)
  | unorderedPruned (bases : BaseSet) (path : PathId) (cost : Cost) (cheapest : PathId)
  | selected (bases : BaseSet) (cheapest : Path) (size : Float)
  | exhaustedDropped (bases : BaseSet) (edges : Nat)
  | deduplicated (input output : Nat)
  | batchesMerged (first second output : Nat)
  | levelSelected (count : Nat)
  | exhaustedPruned (input output : Nat)
  | verified (count : Nat)

namespace Event

inductive Severity where
  | trace
  | debug
  deriving DecidableEq

instance : ToString Severity := ⟨fun | .trace => "TRACE" | .debug => "DEBUG"⟩

inductive Field where
  | text (s : String)
  | count (n : Nat)
  | rows (x : Float)

def severity : Event → Severity
  | merged .. | replaced .. | dominated .. | unorderedPruned .. | selected .. | exhaustedDropped .. => .trace
  | deduplicated .. | batchesMerged .. | levelSelected .. | exhaustedPruned .. | verified .. => .debug

def name : Event → String
  | merged .. => "merge_rel"
  | replaced .. => "path_replaced"
  | dominated .. => "path_dominated"
  | unorderedPruned .. => "prune_unordered"
  | selected .. => "select_cheapest"
  | exhaustedDropped .. => "drop_exhausted"
  | deduplicated .. | batchesMerged .. | levelSelected .. | exhaustedPruned .. => "task_finish"
  | verified .. => "verified"

def task : Event → String
  | merged t .. => toString t
  | replaced .. | dominated .. => "merge_path_lists"
  | unorderedPruned .. => "prune_rel_path"
  | selected .. | levelSelected .. => "select_cheapest_and_size"
  | exhaustedDropped .. | exhaustedPruned .. => "prune_exhausted"
  | deduplicated .. => toString MergeTask.deduplicate
  | batchesMerged .. => toString MergeTask.mergeBatches
  | verified .. => "verify_invariants"

def fields : Event → List (String × Field)
  | merged _ b n m => [("relids", .text (toString b)), ("paths", .count n), ("dup_paths", .count m)]
  | replaced b p q => [("relids", .text (toString b)), ("old", .text (toString p)), ("new", .text (toString q))]
  | dominated b p q => [("relids", .text (toString b)), ("path", .text (toString p)), ("by", .text (toString q))]
  | unorderedPruned b p c q =>
    [("relids", .text (toString b)), ("path", .text (toString p)), ("cost", .text (toString c)),
      ("cheapest", .text (toString q))]
  | selected b p x => [("relids", .text (toString b)), ("cheapest", .text (toString p)), ("size", .rows x)]
  | exhaustedDropped b n => [("relids", .text (toString b)), ("edges", .count n)]
  | deduplicated n m => [("input", .count n), ("output", .count m)]
  | batchesMerged n m k => [("first", .count n), ("second", .count m), ("output", .count k)]
  | levelSelected n => [("rels", .count n)]
  | exhaustedPruned n m => [("input", .count n), ("output", .count m)]
  | verified n => [("rels", .count n)]

end Event
end JoinLevel
