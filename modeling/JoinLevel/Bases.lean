namespace JoinLevel

abbrev BaseId := UInt32

structure BaseSet where
  ids : List BaseId
  ascending : ids.Pairwise (· < ·)
  deriving DecidableEq

namespace BaseSet

def insertId (a : BaseId) : List BaseId → List BaseId
  | [] => [a]
  | b :: bs => if a < b then a :: b :: bs else if a = b then b :: bs else b :: insertId a bs

theorem mem_insertId {a c : BaseId} {bs : List BaseId} : c ∈ insertId a bs ↔ c = a ∨ c ∈ bs := by
  induction bs with
  | nil => simp [insertId]
  | cons b bs ih =>
    simp only [insertId]
    split
    · simp
    · split
      · rename_i h; simp [h]
      · simp only [List.mem_cons, ih]; exact or_left_comm

theorem insertId_ascending (a : BaseId) {bs : List BaseId} (h : bs.Pairwise (· < ·)) :
    (insertId a bs).Pairwise (· < ·) := by
  induction bs with
  | nil => simp [insertId]
  | cons b bs ih =>
    simp only [insertId]
    rw [List.pairwise_cons] at h
    split
    · rename_i hab
      refine List.pairwise_cons.mpr ⟨?_, List.pairwise_cons.mpr h⟩
      intro c hc
      rcases List.mem_cons.mp hc with rfl | hc
      · exact hab
      · exact UInt32.lt_trans hab (h.1 c hc)
    · split
      · exact List.pairwise_cons.mpr h
      · rename_i hab hne
        refine List.pairwise_cons.mpr ⟨?_, ih h.2⟩
        intro c hc
        rcases mem_insertId.mp hc with rfl | hc
        · exact UInt32.lt_of_le_of_ne (UInt32.not_lt.mp hab) (Ne.symm hne)
        · exact h.1 c hc

theorem foldr_insertId_ascending (l : List BaseId) : (l.foldr insertId []).Pairwise (· < ·) := by
  induction l with
  | nil => simp
  | cons a l ih => exact insertId_ascending a ih

def ofList (l : List BaseId) : BaseSet := ⟨l.foldr insertId [], foldr_insertId_ascending l⟩

def single (a : BaseId) : BaseSet := ⟨[a], by simp⟩

instance : EmptyCollection BaseSet := ⟨⟨[], .nil⟩⟩

def size (s : BaseSet) : Nat := s.ids.length

def isEmpty (s : BaseSet) : Bool := s.ids.isEmpty

instance : Membership BaseId BaseSet := ⟨fun s a => a ∈ s.ids⟩

def find (a : BaseId) : List BaseId → Bool
  | [] => false
  | b :: bs => if b < a then find a bs else b == a

def contains (s : BaseSet) (a : BaseId) : Bool := find a s.ids

def isSubset (s t : BaseSet) : Bool := s.ids.all t.contains

def overlaps (s t : BaseSet) : Bool := s.ids.any t.contains

def merge : List BaseId → List BaseId → List BaseId
  | [], bs => bs
  | a :: as, [] => a :: as
  | a :: as, b :: bs =>
    if a < b then a :: merge as (b :: bs)
    else if b < a then b :: merge (a :: as) bs
    else a :: merge as bs
termination_by as bs => as.length + bs.length

theorem mem_merge {c : BaseId} {as bs : List BaseId} : c ∈ merge as bs ↔ c ∈ as ∨ c ∈ bs := by
  fun_induction merge as bs with
  | case1 bs => simp
  | case2 a as => simp
  | case3 a as b bs h ih => simp [ih, or_assoc]
  | case4 a as b bs h h' ih => simp only [List.mem_cons, ih]; exact or_left_comm
  | case5 a as b bs h h' ih =>
    have hab : a = b := UInt32.le_antisymm (UInt32.not_lt.mp h') (UInt32.not_lt.mp h)
    simp only [hab, List.mem_cons, ih]
    grind

theorem merge_ascending {as bs : List BaseId} (ha : as.Pairwise (· < ·)) (hb : bs.Pairwise (· < ·)) :
    (merge as bs).Pairwise (· < ·) := by
  fun_induction merge as bs with
  | case1 bs => exact hb
  | case2 a as => exact ha
  | case3 a as b bs h ih =>
    rw [List.pairwise_cons] at ha
    refine List.pairwise_cons.mpr ⟨fun c hc => ?_, ih ha.2 hb⟩
    rcases mem_merge.mp hc with hc | hc
    · exact ha.1 c hc
    · rcases List.mem_cons.mp hc with rfl | hc
      · exact h
      · exact UInt32.lt_trans h (List.rel_of_pairwise_cons hb hc)
  | case4 a as b bs h h' ih =>
    rw [List.pairwise_cons] at hb
    refine List.pairwise_cons.mpr ⟨fun c hc => ?_, ih ha hb.2⟩
    rcases mem_merge.mp hc with hc | hc
    · rcases List.mem_cons.mp hc with rfl | hc
      · exact h'
      · exact UInt32.lt_trans h' (List.rel_of_pairwise_cons ha hc)
    · exact hb.1 c hc
  | case5 a as b bs h h' ih =>
    have hab : a = b := UInt32.le_antisymm (UInt32.not_lt.mp h') (UInt32.not_lt.mp h)
    subst hab
    rw [List.pairwise_cons] at ha hb
    refine List.pairwise_cons.mpr ⟨fun c hc => ?_, ih ha.2 hb.2⟩
    rcases mem_merge.mp hc with hc | hc
    · exact ha.1 c hc
    · exact hb.1 c hc

def union (s t : BaseSet) : BaseSet := ⟨merge s.ids t.ids, merge_ascending s.ascending t.ascending⟩

instance : Union BaseSet := ⟨union⟩

instance : Ord BaseSet := ⟨fun s t => compare s.ids t.ids⟩

instance : ToString BaseSet := ⟨fun s => "\x7b" ++ ",".intercalate (s.ids.map toString) ++ "\x7d"⟩

end BaseSet
end JoinLevel
