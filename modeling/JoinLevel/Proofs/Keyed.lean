import Mathlib.Data.List.Forall2
import Mathlib.Data.List.Induction
import Mathlib.Data.List.Nodup

namespace JoinLevel

section FirstOccurrences

variable {α : Type} [BEq α] [LawfulBEq α] {a : α} {l r : List α}

theorem eraseDups_append_of_mem (h : a ∈ l) : (l ++ [a]).eraseDups = l.eraseDups := by
  rw [List.eraseDups_append]
  simp [List.removeAll, h]

theorem eraseDups_append_of_not_mem (h : a ∉ l) : (l ++ [a]).eraseDups = l.eraseDups ++ [a] := by
  rw [List.eraseDups_append]
  simp [List.removeAll, h, List.eraseDups_cons]

theorem nodup_eraseDups (l : List α) : l.eraseDups.Nodup := by
  induction l using List.reverseRecOn with
  | nil => simp
  | append_singleton l a ih =>
    by_cases h : a ∈ l
    · rwa [eraseDups_append_of_mem h]
    · rw [eraseDups_append_of_not_mem h]
      apply List.nodup_append.mpr
      refine ⟨ih, by simp, ?_⟩
      rintro b hb c hc rfl
      rw [List.mem_singleton.mp hc] at hb
      exact h (List.mem_eraseDups.mp hb)

theorem eraseDups_eq_self (h : l.Nodup) : l.eraseDups = l := by
  induction l using List.reverseRecOn with
  | nil => rfl
  | append_singleton l a ih =>
    obtain ⟨hl, -, hne⟩ := List.nodup_append.mp h
    have ha : a ∉ l := fun ha => hne a ha a (by simp) rfl
    rw [eraseDups_append_of_not_mem ha, ih hl]

theorem eraseDups_append_eraseDups (l r : List α) : (l.eraseDups ++ r.eraseDups).eraseDups = (l ++ r).eraseDups := by
  induction r using List.reverseRecOn with
  | nil => simpa using eraseDups_eq_self (nodup_eraseDups l)
  | append_singleton r a ih =>
    by_cases hr : a ∈ r
    · rw [eraseDups_append_of_mem hr, ih, ← List.append_assoc, eraseDups_append_of_mem (by simp [hr])]
    · rw [eraseDups_append_of_not_mem hr, ← List.append_assoc, ← List.append_assoc]
      by_cases hl : a ∈ l
      · rw [eraseDups_append_of_mem (by simp [hl]), eraseDups_append_of_mem (by simp [hl]), ih]
      · rw [eraseDups_append_of_not_mem (by simp [hl, hr]), eraseDups_append_of_not_mem (by simp [hl, hr]), ih]

theorem eraseDups_perm (h : l.Perm r) : l.eraseDups.Perm r.eraseDups := by
  rw [List.perm_ext_iff_of_nodup (nodup_eraseDups l) (nodup_eraseDups r)]
  intro a
  rw [List.mem_eraseDups, List.mem_eraseDups, h.mem_iff]

theorem find?_eraseDups (P : α → Bool) (l : List α) : l.eraseDups.find? P = l.find? P := by
  induction l using List.reverseRecOn with
  | nil => rfl
  | append_singleton l a ih =>
    by_cases h : a ∈ l
    · rw [eraseDups_append_of_mem h, ih, List.find?_append]
      cases hf : l.find? P with
      | some b => rfl
      | none => simp [List.find?_eq_none.mp hf a h]
    · rw [eraseDups_append_of_not_mem h, List.find?_append, List.find?_append, ih]

theorem eraseDups_map {β : Type} [BEq β] [LawfulBEq β] {f : α → β} (hf : f.Injective) (l : List α) :
    (l.map f).eraseDups = l.eraseDups.map f := by
  induction l using List.reverseRecOn with
  | nil => rfl
  | append_singleton l a ih =>
    rw [List.map_append, List.map_singleton]
    by_cases h : a ∈ l
    · rw [eraseDups_append_of_mem (List.mem_map_of_mem h), eraseDups_append_of_mem h, ih]
    · have hfa : f a ∉ l.map f := (List.mem_map_of_injective hf).not.mpr h
      rw [eraseDups_append_of_not_mem hfa, eraseDups_append_of_not_mem h, ih, List.map_append, List.map_singleton]

end FirstOccurrences

section MapEq

variable {α β : Type} {f : α → β} {as bs : List α}

theorem forall₂_of_map_eq {R : α → α → Prop} (hmap : as.map f = bs.map f)
    (h : ∀ a ∈ as, ∀ b ∈ bs, f a = f b → R a b) : List.Forall₂ R as bs := by
  induction as generalizing bs with
  | nil =>
    rw [List.map_nil, eq_comm, List.map_eq_nil_iff] at hmap
    rw [hmap]
    exact .nil
  | cons a as ih =>
    cases bs with
    | nil => simp at hmap
    | cons b bs =>
      simp only [List.map_cons, List.cons.injEq] at hmap
      apply List.Forall₂.cons
      · exact h a List.mem_cons_self b List.mem_cons_self hmap.1
      · exact ih hmap.2 fun c hc d hd => h c (List.mem_cons_of_mem a hc) d (List.mem_cons_of_mem b hd)

theorem eq_of_map_eq (hmap : as.map f = bs.map f) (h : ∀ a ∈ as, ∀ b ∈ bs, f a = f b → a = b) : as = bs := by
  have heq : List.Forall₂ (· = ·) as bs := forall₂_of_map_eq hmap h
  rwa [List.forall₂_eq_eq_eq] at heq

end MapEq

section FirstKeys

variable {α κ : Type} [BEq κ] [LawfulBEq κ] {key : α → κ} {as xs : List α} {a x : α}

theorem exists_mem_of_eraseDups (hmap : xs.map key = (as.map key).eraseDups) (hx : x ∈ xs) :
    ∃ a ∈ as, key a = key x := by
  rw [← List.mem_map, ← List.mem_eraseDups, ← hmap]
  exact List.mem_map_of_mem hx

theorem exists_first_of_mem (hmap : xs.map key = (as.map key).eraseDups) (ha : a ∈ as) :
    ∃ x ∈ xs, key x = key a := by
  rw [← List.mem_map, hmap, List.mem_eraseDups]
  exact List.mem_map_of_mem ha

end FirstKeys

section Upsert

variable {α κ : Type} [DecidableEq κ] {key : α → κ} {k : κ} {f : Option α → α} {as xs : List α} {x : α}

theorem filter_key_of_mem (hn : (xs.map key).Nodup) (hx : x ∈ xs) : xs.filter (key · = key x) = [x] := by
  induction xs with
  | nil => simp at hx
  | cons y ys ih =>
    obtain ⟨hy, hys⟩ := List.nodup_cons.mp hn
    by_cases hxy : key y = key x
    · have hrest : ys.filter (key · = key x) = [] := by
        apply List.filter_eq_nil_iff.mpr
        intro z hz hzx
        rw [hxy] at hy
        exact hy (List.mem_map.mpr ⟨z, hz, by simpa using hzx⟩)
      have hys' : x ∉ ys := fun hmem => hy (hxy ▸ List.mem_map_of_mem hmem)
      rw [List.filter_cons_of_pos (by simpa using hxy), hrest, (List.mem_cons.mp hx).resolve_right hys']
    · have hne : x ≠ y := fun h => hxy (h ▸ rfl)
      rw [List.filter_cons_of_neg (by simpa using hxy)]
      exact ih hys ((List.mem_cons.mp hx).resolve_left hne)

theorem find?_key_of_mem (hn : (xs.map key).Nodup) (hx : x ∈ xs) : xs.find? (key · = key x) = some x := by
  rw [← List.head?_filter, filter_key_of_mem hn hx]
  rfl

/-- Puts `f` of the first element with the key `k` in its place, or `f none` at the end. -/
def upsert (key : α → κ) (k : κ) (f : Option α → α) : List α → List α
  | [] => [f none]
  | a :: as => if key a = k then f (some a) :: as else a :: upsert key k f as

def KeepsKey (key : α → κ) (k : κ) (f : Option α → α) : Prop := ∀ o, (∀ a ∈ o, key a = k) → key (f o) = k

theorem map_upsert_of_mem (hf : KeepsKey key k f) (h : k ∈ as.map key) :
    (upsert key k f as).map key = as.map key := by
  induction as with
  | nil => simp at h
  | cons a as ih =>
    by_cases ha : key a = k
    · have hfa : key (f (some a)) = k := hf (some a) (by simpa using ha)
      simp [upsert, ha, hfa]
    · have hk : k ∈ as.map key := (List.mem_cons.mp h).resolve_left (Ne.symm ha)
      simp only [upsert, ha, ↓reduceIte, List.map_cons, ih hk]

theorem map_upsert_of_not_mem (hf : KeepsKey key k f) (h : k ∉ as.map key) :
    (upsert key k f as).map key = as.map key ++ [k] := by
  induction as with
  | nil => simp [upsert, hf none (by simp)]
  | cons a as ih =>
    simp only [List.map_cons, List.mem_cons, not_or] at h
    simp [upsert, Ne.symm h.1, ih h.2]

theorem find?_upsert (hf : KeepsKey key k f) (k' : κ) :
    (upsert key k f as).find? (key · = k') =
      if k' = k then some (f (as.find? (key · = k))) else as.find? (key · = k') := by
  induction as with
  | nil =>
    have hnone : key (f none) = k := hf none (by simp)
    by_cases hk : k' = k
    · simp [upsert, hnone, hk]
    · simp [upsert, hnone, hk, Ne.symm hk]
  | cons a as ih =>
    by_cases ha : key a = k
    · have hfa : key (f (some a)) = k := hf (some a) (by simpa using ha)
      by_cases hk : k' = k
      · simp [upsert, ha, hfa, hk]
      · simp [upsert, ha, hfa, hk, Ne.symm hk]
    · simp only [upsert, ha, ↓reduceIte, List.find?_cons, ih]
      by_cases hk : k' = k
      · simp [hk, ha]
      · simp [hk]

theorem filter_upsert_ne (hf : KeepsKey key k f) : (upsert key k f as).filter (key · ≠ k) = as.filter (key · ≠ k) := by
  induction as with
  | nil => simp [upsert, hf none (by simp)]
  | cons a as ih =>
    by_cases ha : key a = k
    · have hfa : key (f (some a)) = k := hf (some a) (by simpa using ha)
      simp [upsert, ha, hfa]
    · simp only [upsert, ha, ↓reduceIte, List.filter_cons, ih]

end Upsert

section Digest

variable {α κ : Type} [DecidableEq κ] {key : α → κ} {pick : List α → Option α} {as bs xs : List α} {a : α} {k : κ}

/-- What `pick` makes of each group with one key, in the order in which the keys come up. -/
def digest (key : α → κ) (pick : List α → Option α) (as : List α) : List α :=
  (as.map key).eraseDups.filterMap fun k => pick (as.filter (key · = k))

theorem eq_digest (hmap : xs.map key = (as.map key).eraseDups)
    (h : ∀ x ∈ xs, pick (as.filter (key · = key x)) = some x) : xs = digest key pick as := by
  rw [digest, ← hmap, List.filterMap_map]
  conv_lhs => rw [← List.filterMap_some (l := xs)]
  apply List.filterMap_congr
  intro x hx
  exact (h x hx).symm

theorem digest_comp {μ : Type} [DecidableEq μ] {f : κ → μ} (hf : f.Injective) (pick : List α → Option α)
    (as : List α) : digest (f ∘ key) pick as = digest key pick as := by
  rw [digest, ← List.map_map, eraseDups_map hf, List.filterMap_map, digest]
  simp only [Function.comp_apply, hf.eq_iff]

structure Picks (key : α → κ) (pick : List α → Option α) : Prop where
  nil : pick [] = none
  cons : ∀ a as, (∀ b ∈ as, key b = key a) → ∃ c, pick (a :: as) = some c ∧ key c = key a

namespace Picks

theorem filter_eq_none (h : Picks key pick) (hk : k ∉ as.map key) : pick (as.filter (key · = k)) = none := by
  have hnil : as.filter (key · = k) = [] := by
    apply List.filter_eq_nil_iff.mpr
    intro a ha hak
    exact hk (List.mem_map.mpr ⟨a, ha, by simpa using hak⟩)
  rw [hnil, h.nil]

theorem filter_eq_some (h : Picks key pick) (hk : k ∈ as.map key) :
    ∃ c, pick (as.filter (key · = k)) = some c ∧ key c = k := by
  have hall : ∀ b ∈ as.filter (key · = k), key b = k := fun b hb => by simpa using (List.mem_filter.mp hb).2
  cases hf : as.filter (key · = k) with
  | nil =>
    obtain ⟨a, ha, hak⟩ := List.mem_map.mp hk
    exact absurd hak (by simpa using List.filter_eq_nil_iff.mp hf a ha)
  | cons a bs =>
    rw [hf, List.forall_mem_cons] at hall
    obtain ⟨c, hc, hca⟩ := h.cons a bs fun b hb => (hall.2 b hb).trans hall.1.symm
    exact ⟨c, hc, hca.trans hall.1⟩

theorem map_digest (h : Picks key pick) (as : List α) : (digest key pick as).map key = (as.map key).eraseDups := by
  rw [digest, List.map_filterMap]
  conv_rhs => rw [← List.filterMap_some (l := (as.map key).eraseDups)]
  apply List.filterMap_congr
  intro k hk
  obtain ⟨c, hc, hck⟩ := h.filter_eq_some (List.mem_eraseDups.mp hk)
  rw [hc, Option.map_some, hck]

theorem nodup_digest (h : Picks key pick) (as : List α) : ((digest key pick as).map key).Nodup :=
  h.map_digest as ▸ nodup_eraseDups _

theorem filter_digest (h : Picks key pick) (as : List α) (k : κ) :
    (digest key pick as).filter (key · = k) = (pick (as.filter (key · = k))).toList := by
  by_cases hk : k ∈ as.map key
  · obtain ⟨c, hc, rfl⟩ := h.filter_eq_some hk
    have hmem : c ∈ digest key pick as := List.mem_filterMap.mpr ⟨key c, List.mem_eraseDups.mpr hk, hc⟩
    rw [hc, filter_key_of_mem (h.nodup_digest as) hmem]
    rfl
  · rw [h.filter_eq_none hk, Option.toList_none]
    apply List.filter_eq_nil_iff.mpr
    intro c hc hck
    apply hk
    rw [← List.mem_eraseDups, ← h.map_digest as]
    exact List.mem_map.mpr ⟨c, hc, by simpa using hck⟩

theorem find?_digest (h : Picks key pick) (as : List α) (k : κ) :
    (digest key pick as).find? (key · = k) = pick (as.filter (key · = k)) := by
  rw [← List.head?_filter, h.filter_digest, Option.head?_toList]

theorem mem_digest_iff (h : Picks key pick) : a ∈ digest key pick as ↔ pick (as.filter (key · = key a)) = some a := by
  rw [← h.find?_digest]
  exact ⟨find?_key_of_mem (h.nodup_digest as), List.mem_of_find?_eq_some⟩

theorem map_some_digest (h : Picks key pick) (as : List α) :
    (digest key pick as).map some = (as.map key).eraseDups.map fun k => pick (as.filter (key · = k)) := by
  rw [← h.map_digest, List.map_map]
  apply List.map_congr_left
  intro a ha
  exact (h.mem_digest_iff.mp ha).symm

theorem digest_append (h : Picks key pick)
    (happend : ∀ as bs, pick ((pick as).toList ++ (pick bs).toList) = pick (as ++ bs)) (as bs : List α) :
    digest key pick (digest key pick as ++ digest key pick bs) = digest key pick (as ++ bs) := by
  symm
  apply eq_digest
  · rw [h.map_digest, List.map_append, List.map_append, h.map_digest, h.map_digest, eraseDups_append_eraseDups]
  · intro x hx
    rw [List.filter_append, h.filter_digest, h.filter_digest, happend, ← List.filter_append, ← h.find?_digest]
    exact find?_key_of_mem (h.nodup_digest _) hx

theorem foldl_upsert (h : Picks key pick) {f : α → Option α → α} (hf : ∀ a, KeepsKey key (key a) (f a))
    (hpick : ∀ as a, pick (as ++ [a]) = some (f a (pick as))) (as : List α) :
    as.foldl (fun kept a => upsert key (key a) (f a) kept) [] = digest key pick as := by
  induction as using List.reverseRecOn with
  | nil => rfl
  | append_singleton as a ih =>
    rw [List.foldl_append, ih, List.foldl_cons, List.foldl_nil]
    have hmap : (upsert key (key a) (f a) (digest key pick as)).map key = ((as ++ [a]).map key).eraseDups := by
      rw [List.map_append, List.map_singleton]
      by_cases ha : key a ∈ as.map key
      · rw [eraseDups_append_of_mem ha, ← h.map_digest]
        apply map_upsert_of_mem (hf a)
        rwa [h.map_digest, List.mem_eraseDups]
      · rw [eraseDups_append_of_not_mem ha, ← h.map_digest]
        apply map_upsert_of_not_mem (hf a)
        rwa [h.map_digest, List.mem_eraseDups]
    apply eq_digest hmap
    intro x hx
    have hfind : (upsert key (key a) (f a) (digest key pick as)).find? (key · = key x) = some x :=
      find?_key_of_mem (hmap ▸ nodup_eraseDups _) hx
    rw [find?_upsert (hf a), h.find?_digest, h.find?_digest] at hfind
    rw [List.filter_append, ← hfind]
    by_cases hxa : key x = key a
    · simp [hxa, hpick]
    · simp [hxa, Ne.symm hxa]

end Picks
end Digest
end JoinLevel
