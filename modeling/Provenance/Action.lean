/-!
# Actions on a state

An action changes a state and gives a value or an error; the state changes that came before an
error stay. A *lens* lets an action on a part of a state act on the whole.

What an action does is said by `runFrom`, with one equation for each way to build an action. An
action *preserves* a property of states if the property holds after it whenever it held before,
whether or not the action failed.
-/

namespace Provenance

/-- An action on `σ` that may fail with `ε`. -/
abbrev Action (σ ε : Type) := ExceptT ε (StateM σ)

/-- A part of type `σ` inside a state of type `τ`. -/
structure Lens (τ σ : Type) where
  get : τ → σ
  set : σ → τ → τ

namespace Action

variable {σ τ ε ε' α : Type}

/-- What an action does from a given state. -/
def runFrom (a : Action σ ε α) (s : σ) : Except ε α × σ := a.run.run s

/-- The action that does what a function says. -/
def of (f : σ → Except ε α × σ) : Action σ ε α := ExceptT.mk fun s => f s

/-- Gives the value or the error as a value; the action itself never fails. -/
def attempt (a : Action σ ε α) : Action σ ε' (Except ε α) := of fun s =>
  let (result, s) := a.runFrom s
  (.ok result, s)

/-- Fails with the error of a failed result. -/
def ofExcept (result : Except ε α) : Action σ ε α := of fun s => (result, s)

def mapError (f : ε → ε') (a : Action σ ε α) : Action σ ε' α := of fun s =>
  let (result, s) := a.runFrom s
  (result.mapError f, s)

/-- Acts on a part of the state. -/
def along (l : Lens τ σ) (a : Action σ ε α) : Action τ ε α := of fun t =>
  let (result, s) := a.runFrom (l.get t)
  (result, l.set s t)

/-- Runs `first`, then `last` whether or not `first` failed. -/
def thenAlways (first : Action σ ε α) (last : σ → σ) : Action σ ε α := of fun s =>
  let (result, s) := first.runFrom s
  (result, last s)

/-! ## What actions do -/

section RunFrom

variable {β : Type}

@[simp] theorem runFrom_pure (x : α) (s : σ) :
    (pure x : Action σ ε α).runFrom s = (.ok x, s) := rfl

theorem runFrom_bind (a : Action σ ε α) (f : α → Action σ ε β) (s : σ) :
    (a >>= f).runFrom s =
      match a.runFrom s with
      | (.ok x, t) => (f x).runFrom t
      | (.error e, t) => (.error e, t) := by
  simp only [runFrom, ExceptT.run, StateT.run, bind, ExceptT.bind, ExceptT.mk, StateT.bind,
    ExceptT.bindCont]
  cases h : a s with
  | mk r t => cases r <;> rfl

theorem runFrom_bind_ok {a : Action σ ε α} {s t : σ} {x : α} (h : a.runFrom s = (.ok x, t))
    (f : α → Action σ ε β) : (a >>= f).runFrom s = (f x).runFrom t := by
  rw [runFrom_bind, h]

theorem runFrom_bind_error {a : Action σ ε α} {s t : σ} {e : ε} (h : a.runFrom s = (.error e, t))
    (f : α → Action σ ε β) : (a >>= f).runFrom s = (.error e, t) := by
  rw [runFrom_bind, h]

/-- A sequence succeeds if both parts do. -/
theorem bind_ok_iff {a : Action σ ε α} {f : α → Action σ ε β} {s u : σ} {y : β} :
    (a >>= f).runFrom s = (.ok y, u) ↔
      ∃ x t, a.runFrom s = (.ok x, t) ∧ (f x).runFrom t = (.ok y, u) := by
  rw [runFrom_bind]
  constructor
  · intro h
    split at h
    · next x t heq => exact ⟨x, t, heq, h⟩
    · cases h
  · rintro ⟨x, t, ha, hf⟩
    rw [ha]
    exact hf

theorem runFrom_map (g : α → β) (a : Action σ ε α) (s : σ) :
    (g <$> a).runFrom s =
      match a.runFrom s with
      | (.ok x, t) => (.ok (g x), t)
      | (.error e, t) => (.error e, t) := by
  simp only [runFrom, ExceptT.run, StateT.run, Functor.map, ExceptT.map, ExceptT.mk, bind,
    StateT.bind]
  cases h : a s with
  | mk r t => cases r <;> rfl

theorem forM_cons (f : β → Action σ ε PUnit) (x : β) (xs : List β) :
    (x :: xs).forM f = f x >>= fun _ => xs.forM f := rfl

theorem forM_append (f : β → Action σ ε PUnit) (xs ys : List β) :
    (xs ++ ys).forM f = xs.forM f >>= fun _ => ys.forM f := by
  induction xs with
  | nil => rfl
  | cons x xs ih => rw [List.cons_append, forM_cons, forM_cons, ih, bind_assoc]

@[simp] theorem runFrom_of (f : σ → Except ε α × σ) (s : σ) : (of f).runFrom s = f s := rfl

@[simp] theorem runFrom_throw (e : ε) (s : σ) :
    (throw e : Action σ ε α).runFrom s = (.error e, s) := rfl

@[simp] theorem runFrom_get (s : σ) : (get : Action σ ε σ).runFrom s = (.ok s, s) := rfl

@[simp] theorem runFrom_set (t s : σ) :
    (set t : Action σ ε PUnit).runFrom s = (.ok ⟨⟩, t) := rfl

@[simp] theorem runFrom_modify (f : σ → σ) (s : σ) :
    (modify f : Action σ ε PUnit).runFrom s = (.ok ⟨⟩, f s) := rfl

@[simp] theorem runFrom_attempt (a : Action σ ε α) (s : σ) :
    (a.attempt : Action σ ε' (Except ε α)).runFrom s = (.ok (a.runFrom s).1, (a.runFrom s).2) := rfl

@[simp] theorem runFrom_ofExcept (r : Except ε α) (s : σ) :
    (ofExcept r : Action σ ε α).runFrom s = (r, s) := rfl

@[simp] theorem runFrom_mapError (f : ε → ε') (a : Action σ ε α) (s : σ) :
    (a.mapError f).runFrom s = ((a.runFrom s).1.mapError f, (a.runFrom s).2) := rfl

@[simp] theorem runFrom_along (l : Lens τ σ) (a : Action σ ε α) (t : τ) :
    (a.along l).runFrom t = ((a.runFrom (l.get t)).1, l.set (a.runFrom (l.get t)).2 t) := rfl

@[simp] theorem runFrom_thenAlways (a : Action σ ε α) (last : σ → σ) (s : σ) :
    (a.thenAlways last).runFrom s = ((a.runFrom s).1, last (a.runFrom s).2) := rfl

end RunFrom

/-! ## What actions preserve -/

/-- The property holds after the action, however it ends, if it held before. -/
def Preserves (I : σ → Prop) (a : Action σ ε α) : Prop := ∀ s, I s → I (a.runFrom s).2

section Preserves

variable {β : Type} {I : σ → Prop}

theorem Preserves.pure (x : α) : Preserves I (pure x : Action σ ε α) := fun _ h => h

theorem Preserves.throw (e : ε) : Preserves I (throw e : Action σ ε α) := fun _ h => h

theorem Preserves.ofExcept (r : Except ε α) : Preserves I (ofExcept r : Action σ ε α) :=
  fun _ h => h

theorem Preserves.read : Preserves I (get : Action σ ε σ) := fun _ h => h

theorem Preserves.modify {f : σ → σ} (h : ∀ s, I s → I (f s)) :
    Preserves I (modify f : Action σ ε PUnit) := h

theorem Preserves.thenAlways {a : Action σ ε α} {last : σ → σ} (ha : Preserves I a)
    (hlast : ∀ s, I s → I (last s)) : Preserves I (a.thenAlways last) := fun s hs => hlast _ (ha s hs)

theorem Preserves.bind {a : Action σ ε α} {f : α → Action σ ε β} (ha : Preserves I a)
    (hf : ∀ x, Preserves I (f x)) : Preserves I (a >>= f) := by
  intro s hs
  rw [runFrom_bind]
  have h := ha s hs
  split
  · next x t heq => rw [heq] at h; exact hf x t h
  · next e t heq => rw [heq] at h; exact h

theorem Preserves.map {a : Action σ ε α} (g : α → β) (ha : Preserves I a) :
    Preserves I (g <$> a) := by
  intro s hs
  rw [runFrom_map]
  have h := ha s hs
  split <;> next heq => rw [heq] at h; exact h

theorem Preserves.forM {f : β → Action σ ε PUnit} {xs : List β} (h : ∀ x ∈ xs, Preserves I (f x)) :
    Preserves I (xs.forM f) := by
  induction xs with
  | nil => exact .pure _
  | cons x xs ih =>
    exact .bind (h x List.mem_cons_self) fun _ => ih fun y hy => h y (List.mem_cons_of_mem x hy)

theorem Preserves.foldlM {f : β → α → Action σ ε β} {xs : List α}
    (h : ∀ y, ∀ x ∈ xs, Preserves I (f y x)) (y : β) : Preserves I (xs.foldlM f y) := by
  induction xs generalizing y with
  | nil => exact .pure _
  | cons x xs ih =>
    rw [List.foldlM_cons]
    exact .bind (h y x List.mem_cons_self) (ih fun y z hz => h y z (List.mem_cons_of_mem x hz))

theorem Preserves.mapError {a : Action σ ε α} (f : ε → ε') (ha : Preserves I a) :
    Preserves I (a.mapError f) := ha

theorem Preserves.attempt {a : Action σ ε α} (ha : Preserves I a) :
    Preserves I (a.attempt : Action σ ε' (Except ε α)) := ha

theorem Preserves.along {J : τ → Prop} {l : Lens τ σ} {a : Action σ ε α}
    (ha : Preserves I a) (hget : ∀ t, J t → I (l.get t)) (hset : ∀ s t, I s → J t → J (l.set s t)) :
    Preserves J (a.along l) := fun t ht => hset _ t (ha _ (hget t ht)) ht

end Preserves

end Action

end Provenance
