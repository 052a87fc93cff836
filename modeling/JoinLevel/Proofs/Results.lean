import Mathlib.Data.List.Forall2
import JoinLevel.Run

namespace JoinLevel.Run

variable {α β : Type}

@[simp] theorem result_pure (a : α) : (pure a : Run α).result = .ok a := rfl

@[simp] theorem result_record (es : List Event) : (record es).result = .ok () := rfl

@[simp] theorem result_log (e : Event) : (log e).result = .ok () := rfl

theorem result_bind (x : Run α) (f : α → Run β) :
    (x >>= f).result = x.result.bind fun a => (f a).result := by
  cases h : x.result with
  | ok a => rw [bind_of_ok f h]; rfl
  | error v => rw [bind_of_error f h]; rfl

theorem except_bind_ok_iff {x : Except Violation α} {f : α → Except Violation β} {b : β} :
    x.bind f = .ok b ↔ ∃ a, x = .ok a ∧ f a = .ok b := by
  cases x <;> simp [Except.bind]

theorem except_bind_error_iff {x : Except Violation α} {f : α → Except Violation β} {v : Violation} :
    x.bind f = .error v ↔ x = .error v ∨ ∃ a, x = .ok a ∧ f a = .error v := by
  cases x <;> simp [Except.bind]

theorem except_map_ok_iff {x : Except Violation α} {f : α → β} {b : β} :
    x.map f = .ok b ↔ ∃ a, x = .ok a ∧ f a = b := by
  cases x <;> simp [Except.map]

theorem except_map_error_iff {x : Except Violation α} {f : α → β} {v : Violation} :
    x.map f = .error v ↔ x = .error v := by
  cases x <;> simp [Except.map]

theorem bind_ok_iff {x : Run α} {f : α → Run β} {b : β} :
    (x >>= f).result = .ok b ↔ ∃ a, x.result = .ok a ∧ (f a).result = .ok b := by
  rw [result_bind, except_bind_ok_iff]

theorem bind_error_iff {x : Run α} {f : α → Run β} {v : Violation} :
    (x >>= f).result = .error v ↔ x.result = .error v ∨ ∃ a, x.result = .ok a ∧ (f a).result = .error v := by
  rw [result_bind, except_bind_error_iff]

theorem bind_eq_ok_iff {x : Run α} {f : α → Run β} {b : β} {es : List Event} :
    x >>= f = ⟨es, .ok b⟩ ↔ ∃ a es₁ es₂, x = ⟨es₁, .ok a⟩ ∧ f a = ⟨es₂, .ok b⟩ ∧ es = es₁ ++ es₂ := by
  obtain ⟨es₁, r⟩ := x
  cases r with
  | error v => simp [bind_of_error (x := ⟨es₁, .error v⟩) f rfl]
  | ok a =>
    rw [bind_of_ok (x := ⟨es₁, .ok a⟩) f rfl]
    constructor
    · intro h
      obtain ⟨hes, hb⟩ := Run.mk.inj h
      exact ⟨a, es₁, (f a).events, rfl, congrArg (Run.mk _) hb, hes.symm⟩
    · rintro ⟨a', es₁', es₂, h, hf, rfl⟩
      cases h
      rw [hf]

theorem mapM_ok_iff {f : α → Run β} {as : List α} {bs : List β} :
    (as.mapM f).result = .ok bs ↔ List.Forall₂ (fun a b => (f a).result = .ok b) as bs := by
  induction as generalizing bs with
  | nil => simp [eq_comm]
  | cons a as ih =>
    rw [List.mapM_cons, bind_ok_iff, List.forall₂_cons_left_iff]
    simp only [bind_ok_iff, ih, result_pure, Except.ok.injEq]
    constructor
    · rintro ⟨b, hb, bs', hbs, rfl⟩
      exact ⟨b, bs', hb, hbs, rfl⟩
    · rintro ⟨b, bs', hb, hbs, rfl⟩
      exact ⟨b, hb, bs', hbs, rfl⟩

theorem exists_mapM_ok_iff {f : α → Run β} {as : List α} :
    (∃ bs, (as.mapM f).result = .ok bs) ↔ ∀ a ∈ as, ∃ b, (f a).result = .ok b := by
  induction as with
  | nil => simp
  | cons a as ih =>
    rw [List.forall_mem_cons, ← ih]
    simp only [mapM_ok_iff, List.forall₂_cons_left_iff]
    constructor
    · rintro ⟨_, b, bs, hb, hbs, rfl⟩
      exact ⟨⟨b, hb⟩, bs, hbs⟩
    · rintro ⟨⟨b, hb⟩, bs, hbs⟩
      exact ⟨b :: bs, b, bs, hb, hbs, rfl⟩

theorem mapM_error {f : α → Run β} {as : List α} {v : Violation} (h : (as.mapM f).result = .error v) :
    ∃ xs a ys, as = xs ++ a :: ys ∧ (∀ x ∈ xs, ∃ b, (f x).result = .ok b) ∧ (f a).result = .error v := by
  induction as with
  | nil => cases h
  | cons a as ih =>
    cases ha : (f a).result with
    | error v' =>
      rw [List.mapM_cons, result_bind, ha] at h
      cases h
      exact ⟨[], a, as, rfl, by simp, ha⟩
    | ok b =>
      have hrest : (as.mapM f).result = .error v := by
        rw [List.mapM_cons, result_bind, ha] at h
        simp only [Except.bind, result_bind] at h
        cases hr : (as.mapM f).result with
        | error v' => simpa [hr] using h
        | ok bs => simp [hr] at h
      obtain ⟨xs, x, ys, rfl, hxs, hx⟩ := ih hrest
      exact ⟨a :: xs, x, ys, rfl, List.forall_mem_cons.mpr ⟨⟨b, ha⟩, hxs⟩, hx⟩

theorem mapM_error_iff {f : α → Run β} {as : List α} {v : Violation} : (as.mapM f).result = .error v ↔
    ∃ xs a ys, as = xs ++ a :: ys ∧ (∀ x ∈ xs, ∃ b, (f x).result = .ok b) ∧ (f a).result = .error v := by
  constructor
  · exact mapM_error
  · rintro ⟨xs, a, ys, rfl, hxs, ha⟩
    obtain ⟨bs, hbs⟩ := exists_mapM_ok_iff.mpr hxs
    rw [List.mapM_append, bind_error_iff]
    refine .inr ⟨bs, hbs, ?_⟩
    rw [List.mapM_cons, bind_error_iff, bind_error_iff]
    exact .inl (.inl ha)

theorem exists_of_mem_left {R : α → β → Prop} {as : List α} {bs : List β} {a : α}
    (h : List.Forall₂ R as bs) (ha : a ∈ as) : ∃ b ∈ bs, R a b := by
  induction h with
  | nil => simp at ha
  | cons hab _ ih =>
    rcases List.mem_cons.mp ha with rfl | ha
    · exact ⟨_, List.mem_cons_self, hab⟩
    · obtain ⟨b, hb, hr⟩ := ih ha
      exact ⟨b, List.mem_cons_of_mem _ hb, hr⟩

theorem exists_of_mem_right {R : α → β → Prop} {as : List α} {bs : List β} {b : β}
    (h : List.Forall₂ R as bs) (hb : b ∈ bs) : ∃ a ∈ as, R a b := exists_of_mem_left h.flip hb

theorem forall₂_trans {γ : Type} {R : α → β → Prop} {S : β → γ → Prop} {T : α → γ → Prop} {as : List α} {bs : List β}
    {cs : List γ} (h : ∀ a b c, R a b → S b c → T a c) (hR : List.Forall₂ R as bs) (hS : List.Forall₂ S bs cs) :
    List.Forall₂ T as cs := by
  induction hR generalizing cs with
  | nil =>
    cases hS
    exact .nil
  | cons hab _ ih =>
    cases hS with
    | cons hbc hrest => exact .cons (h _ _ _ hab hbc) (ih hrest)

theorem map_eq_of_forall₂ {γ : Type} {f : α → γ} {g : β → γ} {as : List α} {bs : List β}
    (h : List.Forall₂ (fun a b => g b = f a) as bs) : bs.map g = as.map f := by
  induction h with
  | nil => rfl
  | cons hab _ ih => rw [List.map_cons, List.map_cons, hab, ih]

end JoinLevel.Run
