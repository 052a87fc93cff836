import JoinLevel.Proofs.Edges
import JoinLevel.Proofs.Pooling
import JoinLevel.Sample

namespace JoinLevel

inductive JoinTree where
  | base (r : Candidate)
  | join (outer inner : JoinTree)

def Edge.link (e : Edge) : BaseSet × List Clause := (e.target, e.clauses)

/-- Between two joins a candidate may change in every way but these. -/
structure SameEdges (r s : Candidate) : Prop where
  bases : s.bases = r.bases
  edges : s.edges.map Edge.link = r.edges.map Edge.link

namespace JoinTree

def leaves : JoinTree → List Candidate
  | base r => [r]
  | join outer inner => outer.leaves ++ inner.leaves

inductive Builds : JoinTree → Candidate → Prop
  | base (r : Candidate) : Builds (.base r) r
  | join {outer inner : JoinTree} {o o' i i' r : Candidate} {clauses : List Clause} {plans : List JoinPlan}
      {pruneable : Bool} (ho : Builds outer o) (hi : Builds inner i) (ho' : SameEdges o o') (hi' : SameEdges i i')
      (hr : o'.join? i' clauses plans pruneable = some r) : Builds (.join outer inner) r

end JoinTree

def Joined (ls : List Candidate) (r : Candidate) : Prop :=
  ∃ outer inner : JoinTree, (outer.leaves ++ inner.leaves).Perm ls ∧ (outer.join inner).Builds r

structure Carries (ls : List Candidate) (r : Candidate) : Prop where
  bases : ∀ a, a ∈ r.bases ↔ ∃ l ∈ ls, a ∈ l.bases
  targets : ∀ t, ¬ t ⊆ r.bases → (t ∈ r.edges.map Edge.target ↔ t ∈ (ls.flatMap Candidate.edges).map Edge.target)
  clauses : ∀ t, ¬ t ⊆ r.bases → (clausesTo t r.edges).Perm (clausesTo t (ls.flatMap Candidate.edges))

/-- `r` has one active edge for each target of the candidates `ls` outside of it, with all their clauses. -/
structure Inherits (ls : List Candidate) (r : Candidate) : Prop where
  bases : ∀ a, a ∈ r.bases ↔ ∃ l ∈ ls, a ∈ l.bases
  distinct : (r.edges.map Edge.target).Nodup
  targets : ∀ t, t ∈ r.edges.map Edge.target ↔ t ∈ (ls.flatMap Candidate.edges).map Edge.target ∧ ¬ t ⊆ r.bases
  active : ∀ e ∈ r.edges, e.inactive = false
  clauses : ∀ e ∈ r.edges, e.clauses.Perm (clausesTo e.target (ls.flatMap Candidate.edges))

def KeepsEdges (r s : Candidate) : Prop :=
  ∀ f ∈ s.edges, ∃ e ∈ r.edges, e.target = f.target ∧ e.inactive = f.inactive ∧ e.clauses.Perm f.clauses

variable {ls ms : List Candidate} {r s d o i : Candidate} {clauses : List Clause} {plans : List JoinPlan}
  {pruneable : Bool} {target : BaseSet}

theorem Candidate.join?_eq_some (hr : o.join? i clauses plans pruneable = some r) :
    r.bases = o.bases ∪ i.bases ∧ r.edges = inheritEdges r.bases (o.edges ++ i.edges) := by
  unfold Candidate.join? at hr
  split at hr
  · cases hr
    exact ⟨rfl, rfl⟩
  · cases hr

namespace SameEdges

theorem targets (h : SameEdges r s) : s.edges.map Edge.target = r.edges.map Edge.target := by
  have hfst (es : List Edge) : es.map Edge.target = (es.map Edge.link).map Prod.fst := by
    rw [List.map_map]
    rfl
  rw [hfst, hfst, h.edges]

theorem clausesTo (h : SameEdges r s) (target : BaseSet) :
    JoinLevel.clausesTo target s.edges = JoinLevel.clausesTo target r.edges := by
  have hlink (es : List Edge) : JoinLevel.clausesTo target es =
      ((es.map Edge.link).filter (·.1 = target)).flatMap Prod.snd := by
    rw [JoinLevel.clausesTo, List.filter_map, List.flatMap_map]
    rfl
  rw [hlink, hlink, h.edges]

end SameEdges

theorem clausesTo_perm {es es' : List Edge} (h : es.Perm es') : (clausesTo target es).Perm (clausesTo target es') :=
  (h.filter _).flatMap_right _

namespace Carries

theorem base (r : Candidate) : Carries [r] r := by
  constructor <;> simp

theorem perm (h : Carries ls r) (hp : ls.Perm ms) : Carries ms r where
  bases a := by
    rw [h.bases]
    simp only [hp.mem_iff]
  targets t ht := (h.targets t ht).trans ((hp.flatMap_right _).map _).mem_iff
  clauses t ht := (h.clauses t ht).trans (clausesTo_perm (hp.flatMap_right _))

theorem congr (h : Carries ls r) (hs : SameEdges r s) : Carries ls s where
  bases a := by
    rw [hs.bases]
    exact h.bases a
  targets t := by
    rw [hs.bases, hs.targets]
    exact h.targets t
  clauses t := by
    rw [hs.bases, hs.clausesTo]
    exact h.clauses t

theorem join (ho : Carries ls o) (hi : Carries ms i) (hr : o.join? i clauses plans pruneable = some r) :
    Carries (ls ++ ms) r := by
  obtain ⟨hb, he⟩ := Candidate.join?_eq_some hr
  -- an edge that the join passes on was passed on at every join below
  have hout : ∀ t, ¬ t ⊆ r.bases → ¬ t ⊆ o.bases ∧ ¬ t ⊆ i.bases := by
    intro t ht
    rw [hb] at ht
    constructor
    · exact fun hto => ht (BaseSet.subset_trans hto BaseSet.subset_union_left)
    · exact fun hti => ht (BaseSet.subset_trans hti BaseSet.subset_union_right)
  constructor
  · intro a
    rw [hb, BaseSet.mem_union, ho.bases, hi.bases]
    simp only [List.mem_append, or_and_right, exists_or]
  · intro t ht
    obtain ⟨hto, hti⟩ := hout t ht
    rw [he, mem_inheritEdges_target, and_iff_left ht, List.flatMap_append, List.map_append, List.map_append,
      List.mem_append, List.mem_append, ho.targets t hto, hi.targets t hti]
  · intro t ht
    obtain ⟨hto, hti⟩ := hout t ht
    rw [he, clausesTo_inheritEdges ht, clausesTo_append, List.flatMap_append, clausesTo_append]
    exact (ho.clauses t hto).append (hi.clauses t hti)

theorem inherits {es : List Edge} (h : Carries ls r) (hr : r.edges = inheritEdges r.bases es) : Inherits ls r := by
  have hn : (r.edges.map Edge.target).Nodup := hr ▸ nodup_inheritEdges r.bases es
  have hout : ∀ t ∈ r.edges.map Edge.target, ¬ t ⊆ r.bases := by
    intro t ht
    rw [hr] at ht
    exact (mem_inheritEdges_target.mp ht).2
  refine ⟨h.bases, hn, ?_, ?_, ?_⟩
  · intro t
    constructor
    · exact fun ht => ⟨(h.targets t (hout t ht)).mp ht, hout t ht⟩
    · rintro ⟨ht, hsub⟩
      exact (h.targets t hsub).mpr ht
  · intro e he
    rw [hr] at he
    exact inheritEdges_active he
  · intro e he
    rw [← clausesTo_of_mem hn he]
    exact h.clauses e.target (hout e.target (List.mem_map_of_mem he))

end Carries

theorem JoinTree.Builds.carries {t : JoinTree} (h : t.Builds r) : Carries t.leaves r := by
  induction h with
  | base r => exact Carries.base r
  | join ho hi ho' hi' hr iho ihi => exact (iho.congr ho').join (ihi.congr hi') hr

theorem Joined.inherits (h : Joined ls r) : Inherits ls r := by
  obtain ⟨outer, inner, hperm, hbuilds⟩ := h
  have hcarries := hbuilds.carries.perm hperm
  cases hbuilds with
  | join ho hi ho' hi' hr => exact hcarries.inherits (Candidate.join?_eq_some hr).2

namespace Inherits

theorem bases_eq (hr : Inherits ls r) (hs : Inherits ls s) : s.bases = r.bases := by
  apply BaseSet.eq_of_mem_iff
  intro a
  rw [hs.bases, hr.bases]

theorem clauses_perm {e f : Edge} (hr : Inherits ls r) (hs : Inherits ls s) (he : e ∈ r.edges) (hf : f ∈ s.edges)
    (h : f.target = e.target) : f.clauses.Perm e.clauses := by
  have hfc := hs.clauses f hf
  rw [h] at hfc
  exact hfc.trans (hr.clauses e he).symm

theorem keepsEdges (hr : Inherits ls r) (hs : Inherits ls s) : KeepsEdges r s := by
  intro f hf
  have ht : f.target ∈ r.edges.map Edge.target := by
    rw [hr.targets, ← hr.bases_eq hs, ← hs.targets]
    exact List.mem_map_of_mem hf
  obtain ⟨e, he, het⟩ := List.mem_map.mp ht
  have hactive : e.inactive = f.inactive := by rw [hr.active e he, hs.active f hf]
  exact ⟨e, he, het, hactive, hs.clauses_perm hr hf he het⟩

end Inherits

theorem Pruner.dedup_keeps_edges (p : Pruner) {rs : List Candidate} (hd : d ∈ rs) (hjoined : Joined ls d)
    (hrs : ∀ r ∈ rs, r.cheapest = none ∧ (r.bases = d.bases → Joined ls r)) :
    ∃ out, (p.dedup rs).result = .ok out ∧ ∃ s ∈ out, s.bases = d.bases ∧ KeepsEdges s d := by
  obtain ⟨out, hout, hmap, hgather⟩ := p.dedup_of_unselected fun r hr => (hrs r hr).1
  obtain ⟨s, hs, hsb⟩ := exists_first_of_mem hmap hd
  obtain ⟨r, ds, hr, hsr⟩ := hgather s hs
  have hmem : r ∈ rs.filter (·.bases = s.bases) := hr ▸ List.mem_cons_self
  rw [hsb, List.mem_filter, decide_eq_true_iff] at hmem
  have hrj : Joined ls r := (hrs r hmem.1).2 hmem.2
  rw [hsr] at hs hsb
  exact ⟨out, hout, _, hs, hsb, hrj.inherits.keepsEdges hjoined.inherits⟩

theorem Joined.edges_independent (hr : Joined ls r) (hs : Joined ls s) :
    s.bases = r.bases ∧ Inherits ls r ∧ Inherits ls s ∧
      (∀ e ∈ r.edges, ∀ f ∈ s.edges, f.target = e.target → f.clauses.Perm e.clauses) ∧
      ∀ (p : Pruner) (rs : List Candidate), s ∈ rs →
        (∀ d ∈ rs, d.cheapest = none ∧ (d.bases = s.bases → Joined ls d)) →
        ∃ out, (p.dedup rs).result = .ok out ∧ ∃ d ∈ out, d.bases = s.bases ∧ KeepsEdges d s := by
  have hri := hr.inherits
  have hsi := hs.inherits
  refine ⟨hri.bases_eq hsi, hri, hsi, ?_, ?_⟩
  · intro e he f hf h
    exact hri.clauses_perm hsi he hf h
  · intro p rs hmem hrs
    exact p.dedup_keeps_edges hmem hs hrs

namespace JoinTree

def used (r : Candidate) : Candidate :=
  { r with cheapest := some Sample.heapJoin, edges := r.edges.map fun e => { e with inactive := true } }

def build : JoinTree → Candidate
  | base r => r
  | join outer inner =>
    let o := used outer.build
    let i := used inner.build
    { bases := o.bases ∪ i.bases, edges := inheritEdges (o.bases ∪ i.bases) (o.edges ++ i.edges) }

theorem sameEdges_used (r : Candidate) : SameEdges r (used r) where
  bases := rfl
  edges := by
    rw [used, List.map_map]
    rfl

theorem builds_build (t : JoinTree) : t.Builds t.build := by
  induction t with
  | base r => exact .base r
  | join outer inner iho ihi =>
    have hr : (used outer.build).join? (used inner.build) [] [] true = some (outer.join inner).build := rfl
    exact .join iho ihi (sameEdges_used _) (sameEdges_used _) hr

end JoinTree

namespace Sample

def edge (source target : BaseId) (columns : List UInt32) (inactive : Bool) : Edge :=
  { target := .single target, clauses := columns.map fun c => ⟨⟨source, c⟩, ⟨target, c⟩, 0.25⟩, inactive }

def one : Candidate := { candidate [1] [] with edges := [edge 1 2 [0] false, edge 1 4 [1] true] }

def two : Candidate :=
  { candidate [2] [] with edges := [edge 2 1 [0] false, edge 2 3 [0] true, edge 2 5 [2] false] }

def three : Candidate := { candidate [3] [] with edges := [edge 3 4 [3] false, edge 3 4 [4, 5] true] }

def leftDeep : JoinTree := ((JoinTree.base one).join (.base two)).join (.base three)

def rightDeep : JoinTree := (JoinTree.base three).join ((JoinTree.base two).join (.base one))

def outgoing (r : Candidate) : List (BaseSet × List Column) :=
  r.edges.map fun e => (e.target, e.clauses.map Clause.outer)

end Sample

open Sample in
theorem edges_independent_of_depth : Joined [one, two, three] leftDeep.build ∧
    Joined [one, two, three] rightDeep.build ∧
    outgoing leftDeep.build = [(.single 4, [⟨1, 1⟩, ⟨3, 3⟩, ⟨3, 4⟩, ⟨3, 5⟩]), (.single 5, [⟨2, 2⟩])] ∧
    outgoing rightDeep.build = [(.single 4, [⟨3, 3⟩, ⟨3, 4⟩, ⟨3, 5⟩, ⟨1, 1⟩]), (.single 5, [⟨2, 2⟩])] ∧
    rightDeep.build.bases = leftDeep.build.bases ∧
    ∃ out, (({} : Pruner).dedup [leftDeep.build, rightDeep.build]).result = .ok out ∧
      ∃ d ∈ out, d.bases = rightDeep.build.bases ∧ KeepsEdges d rightDeep.build := by
  have hleft : Joined [one, two, three] leftDeep.build := ⟨_, _, List.Perm.refl _, leftDeep.builds_build⟩
  have hright : Joined [one, two, three] rightDeep.build :=
    ⟨.base three, (JoinTree.base two).join (.base one), List.reverse_perm [one, two, three], rightDeep.builds_build⟩
  obtain ⟨hb, -, -, -, hdedup⟩ := hleft.edges_independent hright
  refine ⟨hleft, hright, by decide +kernel, by decide +kernel, hb, ?_⟩
  apply hdedup {} _ (by simp)
  rw [List.forall_mem_cons, List.forall_mem_singleton]
  exact ⟨⟨rfl, fun _ => hleft⟩, rfl, fun _ => hright⟩

end JoinLevel
