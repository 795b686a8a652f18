import Provenance.Action

/-!
# Runs that concur

Two runs that end in the same way: both with one value, or both with one error. What is said of the states in
which they end depends on which of these it is.
-/

namespace Provenance

variable {σ ε α β : Type}

/-- Both runs give the same value and leave states that are related by it, or both fail with the same error and
leave states that are related otherwise. -/
def Concur (J : α → σ → σ → Prop) (E : σ → σ → Prop) (o o' : Except ε α × σ) : Prop :=
  (∃ x s s', o = (.ok x, s) ∧ o' = (.ok x, s') ∧ J x s s') ∨
    ∃ e s s', o = (.error e, s) ∧ o' = (.error e, s') ∧ E s s'

theorem Concur.mono {J J' : α → σ → σ → Prop} {E E' : σ → σ → Prop} {o o' : Except ε α × σ} (h : Concur J E o o')
    (hJ : ∀ x s s', J x s s' → J' x s s') (hE : ∀ s s', E s s' → E' s s') : Concur J' E' o o' := by
  rcases h with ⟨x, s, s', hs, hs', hj⟩ | ⟨e, s, s', hs, hs', he⟩
  · exact Or.inl ⟨x, s, s', hs, hs', hJ x s s' hj⟩
  · exact Or.inr ⟨e, s, s', hs, hs', hE s s' he⟩

namespace Action

variable {I : σ → σ → Prop} {J : α → σ → σ → Prop} {K : β → σ → σ → Prop} {E : σ → σ → Prop}

/-- From related states the actions concur. -/
def Concurs (E I : σ → σ → Prop) (a a' : Action σ ε α) (J : α → σ → σ → Prop) : Prop :=
  ∀ s s', I s s' → Concur J E (a.runFrom s) (a'.runFrom s')

theorem concur_bind {a a' : Action σ ε α} {f f' : α → Action σ ε β} {s s' : σ}
    (ha : Concur J E (a.runFrom s) (a'.runFrom s')) (hf : ∀ x, Concurs E (J x) (f x) (f' x) K) :
    Concur K E ((a >>= f).runFrom s) ((a' >>= f').runFrom s') := by
  rcases ha with ⟨x, t, t', ht, ht', hj⟩ | ⟨e, t, t', ht, ht', he⟩
  · rw [runFrom_bind_ok ht, runFrom_bind_ok ht']
    exact hf x t t' hj
  · rw [runFrom_bind_error ht, runFrom_bind_error ht']
    exact Or.inr ⟨e, t, t', rfl, rfl, he⟩

namespace Concurs

theorem pure {x : α} (h : ∀ s s', I s s' → J x s s') :
    Concurs E I (pure x : Action σ ε α) (Pure.pure x) J := fun s s' hs => Or.inl ⟨x, s, s', rfl, rfl, h s s' hs⟩

theorem bind {a a' : Action σ ε α} {f f' : α → Action σ ε β} (ha : Concurs E I a a' J)
    (hf : ∀ x, Concurs E (J x) (f x) (f' x) K) : Concurs E I (a >>= f) (a' >>= f') K := fun s s' hs =>
  concur_bind (ha s s' hs) hf

theorem mono {a a' : Action σ ε α} {J' : α → σ → σ → Prop} (ha : Concurs E I a a' J)
    (hJ : ∀ x s s', J x s s' → J' x s s') : Concurs E I a a' J' := fun s s' hs =>
  (ha s s' hs).mono hJ fun _ _ h => h

theorem forM {f f' : β → Action σ ε PUnit} {xs : List β} (h : ∀ x ∈ xs, Concurs E I (f x) (f' x) fun _ => I) :
    Concurs E I (xs.forM f) (xs.forM f') fun _ => I := by
  induction xs with
  | nil => exact .pure fun _ _ h => h
  | cons x xs ih =>
    rw [forM_cons, forM_cons]
    exact (h x List.mem_cons_self).bind fun _ => ih fun y hy => h y (List.mem_cons_of_mem x hy)

end Concurs

end Action

end Provenance
