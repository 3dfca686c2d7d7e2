import Mathlib.Data.List.Forall2

/-!
Computations that may fail. A sequence of them gives a result exactly when each does, and when
it fails one of them has failed in the same way. Two sequences of steps go the same way when they
do so step by step.
-/

namespace Almanac

theorem bind_eq_ok_iff {α β ε : Type} {x : Except ε α} {f : α → Except ε β} {b : β} :
    x >>= f = .ok b ↔ ∃ a, x = .ok a ∧ f a = .ok b := by
  cases x <;> simp [bind, Except.bind]

theorem bind_eq_error_iff {α β ε : Type} {x : Except ε α} {f : α → Except ε β} {e : ε} :
    x >>= f = .error e ↔ x = .error e ∨ ∃ a, x = .ok a ∧ f a = .error e := by
  cases x <;> simp [bind, Except.bind]

theorem map_eq_ok_iff {α β ε : Type} {x : Except ε α} {f : α → β} {b : β} :
    x.map f = .ok b ↔ ∃ a, x = .ok a ∧ f a = b := by
  cases x <;> simp [Except.map]

theorem map_eq_error_iff {α β ε : Type} {x : Except ε α} {f : α → β} {e : ε} :
    x.map f = .error e ↔ x = .error e := by
  cases x <;> simp [Except.map]

theorem mapError_eq_ok_iff {α ε ε' : Type} {x : Except ε α} {f : ε → ε'} {a : α} :
    x.mapError f = .ok a ↔ x = .ok a := by
  cases x <;> simp [Except.mapError]

theorem mapError_eq_error_iff {α ε ε' : Type} {x : Except ε α} {f : ε → ε'} {e : ε'} :
    x.mapError f = .error e ↔ ∃ cause, x = .error cause ∧ f cause = e := by
  cases x <;> simp [Except.mapError]

theorem mapM_eq_ok_iff {α β ε : Type} {f : α → Except ε β} {items : List α} {results : List β} :
    items.mapM f = .ok results ↔ List.Forall₂ (fun a b => f a = .ok b) items results := by
  induction items generalizing results with
  | nil => simp [pure, Except.pure, eq_comm]
  | cons item rest ih =>
    rw [List.mapM_cons, List.forall₂_cons_left_iff, bind_eq_ok_iff]
    simp only [bind_eq_ok_iff, ih, pure, Except.pure, Except.ok.injEq]
    constructor
    · intro h
      obtain ⟨b, hitem, found, hrest, rfl⟩ := h
      exact ⟨b, found, hitem, hrest, rfl⟩
    · intro h
      obtain ⟨b, found, hitem, hrest, rfl⟩ := h
      exact ⟨b, hitem, found, hrest, rfl⟩

theorem mapM_attach {α β ε : Type} (items : List α) (f : α → Except ε β) :
    (items.attach.mapM fun item => f item.1) = items.mapM f := by
  rw [List.mapM_subtype (g := f) fun _ _ => rfl, List.unattach_attach]

theorem exists_forall₂_iff {α β : Type} {R : α → β → Prop} {items : List α} :
    (∃ results, List.Forall₂ R items results) ↔ ∀ item ∈ items, ∃ b, R item b := by
  induction items with
  | nil => simp
  | cons item rest ih =>
    rw [List.forall_mem_cons, ← ih]
    constructor
    · intro h
      obtain ⟨results, hresults⟩ := h
      obtain ⟨b, found, hb, hfound, rfl⟩ := List.forall₂_cons_left_iff.mp hresults
      exact ⟨⟨b, hb⟩, ⟨found, hfound⟩⟩
    · intro h
      obtain ⟨⟨b, hb⟩, ⟨found, hfound⟩⟩ := h
      exact ⟨b :: found, .cons hb hfound⟩

/-- Each result is that of some item. -/
theorem exists_mem_of_forall₂ {α β : Type} {R : α → β → Prop} {items : List α}
    {results : List β} (h : List.Forall₂ R items results) {b : β} (hb : b ∈ results) :
    ∃ item ∈ items, R item b := by
  induction h with
  | nil => cases hb
  | cons hitem hrest ih =>
    rcases List.mem_cons.mp hb with rfl | hb
    · exact ⟨_, List.mem_cons_self, hitem⟩
    · obtain ⟨item, hmem, hrel⟩ := ih hb
      exact ⟨item, List.mem_cons_of_mem _ hmem, hrel⟩

theorem forall₂_congr_left {α β : Type} {R S : α → β → Prop} {items : List α} {results : List β}
    (h : ∀ item ∈ items, ∀ b, R item b ↔ S item b) :
    List.Forall₂ R items results ↔ List.Forall₂ S items results := by
  induction items generalizing results with
  | nil => simp
  | cons item rest ih =>
    obtain ⟨hitem, hrest⟩ := List.forall_mem_cons.mp h
    simp only [List.forall₂_cons_left_iff, hitem, ih hrest]

theorem forall₂_image_iff {α β γ : Type} {R : α → β → Prop} {f : β → γ} {items : List α}
    {results : List γ} :
    List.Forall₂ (fun item c => ∃ b, R item b ∧ c = f b) items results ↔
      ∃ found, List.Forall₂ R items found ∧ results = found.map f := by
  induction items generalizing results with
  | nil => simp
  | cons item rest ih =>
    simp only [List.forall₂_cons_left_iff, ih]
    constructor
    · intro h
      obtain ⟨_, _, ⟨b, hb, rfl⟩, ⟨found, hfound, rfl⟩, rfl⟩ := h
      exact ⟨b :: found, ⟨b, found, hb, hfound, rfl⟩, rfl⟩
    · intro h
      obtain ⟨_, ⟨b, found, hb, hfound, rfl⟩, rfl⟩ := h
      exact ⟨f b, found.map f, ⟨b, hb, rfl⟩, ⟨found, hfound, rfl⟩, rfl⟩

/-- A failure of a whole traversal is the failure of one of its items. -/
theorem exists_of_mapM_eq_error {α β ε : Type} {f : α → Except ε β} {items : List α} {e : ε}
    (h : items.mapM f = .error e) : ∃ item ∈ items, f item = .error e := by
  induction items with
  | nil => simp [pure, Except.pure] at h
  | cons item rest ih =>
    simp only [List.mapM_cons, bind_eq_error_iff] at h
    rcases h with hitem | ⟨b, _, hrest | ⟨found, _, hdone⟩⟩
    · exact ⟨item, List.mem_cons_self, hitem⟩
    · obtain ⟨other, hmem, hother⟩ := ih hrest
      exact ⟨other, List.mem_cons_of_mem _ hmem, hother⟩
    · simp [pure, Except.pure] at hdone

/-- Items that are each taken back are taken back together. -/
theorem mapM_map_eq_some {α β : Type} {f : α → β} {g : β → Option α} {items : List α}
    (h : ∀ item ∈ items, g (f item) = some item) : (items.map f).mapM g = some items := by
  induction items with
  | nil => rfl
  | cons item rest ih =>
    obtain ⟨hitem, hrest⟩ := List.forall_mem_cons.mp h
    rw [List.map_cons, List.mapM_cons, hitem, ih hrest]
    rfl

/-! What comes of a computation either way -/

def Yields {α ε : Type} (F : ε → Prop) (R : α → Prop) : Except ε α → Prop
  | .ok a => R a
  | .error e => F e

section

variable {α β ε : Type} {F : ε → Prop} {R : α → Prop} {S : β → Prop} {x : Except ε α}

theorem Yields.of_eq_ok (h : Yields F R x) {a : α} (hx : x = .ok a) : R a := by
  rwa [hx] at h

theorem Yields.of_eq_error (h : Yields F R x) {e : ε} (hx : x = .error e) : F e := by
  rwa [hx] at h

theorem Yields.bind {f : α → Except ε β} (h : Yields F R x)
    (hf : ∀ a, R a → Yields F S (f a)) : Yields F S (x >>= f) := by
  cases x with
  | ok a => exact hf a h
  | error e => exact h

theorem Yields.map {f : α → β} (h : Yields F R x) (hf : ∀ a, R a → S (f a)) :
    Yields F S (x.map f) := by
  cases x with
  | ok a => exact hf a h
  | error e => exact h

theorem Yields.mapM {f : α → Except ε β} {items : List α}
    (h : ∀ item ∈ items, Yields F S (f item)) :
    Yields F (fun results => ∀ b ∈ results, S b) (items.mapM f) := by
  induction items with
  | nil => exact List.forall_mem_nil S
  | cons item rest ih =>
    obtain ⟨hitem, hrest⟩ := List.forall_mem_cons.mp h
    rw [List.mapM_cons]
    exact hitem.bind fun _ hb => (ih hrest).bind fun _ hbs => List.forall_mem_cons.mpr ⟨hb, hbs⟩

end

/-! Two computations side by side -/

/-- Two computations go the same way: both give results that are related, or both fail with
related errors. Nothing is asked of the second one when the first fails with an error that is
excused. -/
inductive Agrees {α β ε : Type} (excused : ε → Prop) (F : ε → ε → Prop) (R : α → β → Prop) :
    Except ε α → Except ε β → Prop
  | ok {a : α} {b : β} (h : R a b) : Agrees excused F R (.ok a) (.ok b)
  | error {e e' : ε} (h : F e e') : Agrees excused F R (.error e) (.error e')
  | excused {e : ε} {y : Except ε β} (h : excused e) : Agrees excused F R (.error e) y

section

variable {α β α' β' ε : Type} {excused : ε → Prop} {F : ε → ε → Prop}

theorem Agrees.refl (hF : ∀ e, F e e) (x : Except ε α) : Agrees excused F Eq x x := by
  cases x with
  | ok a => exact .ok rfl
  | error e => exact .error (hF e)

theorem Agrees.eq_or_excused {x y : Except ε α} (h : Agrees excused Eq Eq x y) :
    x = y ∨ ∃ e, x = .error e ∧ excused e := by
  cases h with
  | ok h => exact .inl (congrArg _ h)
  | error h => exact .inl (congrArg _ h)
  | excused h => exact .inr ⟨_, rfl, h⟩

theorem Agrees.imp {R S : α → β → Prop} {x : Except ε α} {y : Except ε β}
    (h : Agrees excused F R x y) (hRS : ∀ a b, R a b → S a b) : Agrees excused F S x y := by
  cases h with
  | ok h => exact .ok (hRS _ _ h)
  | error h => exact .error h
  | excused h => exact .excused h

theorem Agrees.bind {R : α → β → Prop} {S : α' → β' → Prop} {x : Except ε α} {y : Except ε β}
    {f : α → Except ε α'} {g : β → Except ε β'} (h : Agrees excused F R x y)
    (hf : ∀ a b, R a b → Agrees excused F S (f a) (g b)) :
    Agrees excused F S (x >>= f) (y >>= g) := by
  cases h with
  | ok h => exact hf _ _ h
  | error h => exact .error h
  | excused h => exact .excused h

theorem Agrees.mapM {R : α' → β' → Prop} {f : α → Except ε α'} {g : β → Except ε β'}
    {xs : List α} {ys : List β}
    (h : List.Forall₂ (fun a b => Agrees excused F R (f a) (g b)) xs ys) :
    Agrees excused F (List.Forall₂ R) (xs.mapM f) (ys.mapM g) := by
  induction h with
  | nil => exact .ok .nil
  | cons hitem _ ih =>
    rw [List.mapM_cons, List.mapM_cons]
    exact hitem.bind fun _ _ hr => ih.bind fun _ _ hrs => .ok (.cons hr hrs)

end

end Almanac
