import Provenance.Proofs.Footprint

/-!
# Replies of a program

All answers that a program gives, in order. The last of them is the answer of the program. A program
may be cut in two: the second part goes on from where the first part ends.
-/

namespace Provenance

open Action

variable {σ : Type} {b : Backend σ}

namespace Program

/-- Executes instructions in order up to the first that fails, and keeps all answers. -/
def replies (b : Backend σ) : Program → Action σ BackendError (List Answer)
  | [] => pure []
  | i :: rest => do
    let answer ← i.execute b
    let later ← replies b rest
    pure (answer.toList ++ later)

/-- The program gives these answers from one store to the other. -/
def Replies (b : Backend σ) (p : Program) (s : σ) (answers : List Answer) (t : σ) : Prop :=
  (replies b p).runFrom s = (.ok answers, t)

/-- The program fails in the store. -/
def Fails (b : Backend σ) (p : Program) (s : σ) : Prop := ∃ e t, (replies b p).runFrom s = (.error e, t)

variable {i : Instruction} {p q : Program} {s t u : σ} {answers later : List Answer}

theorem Replies.nil (s : σ) : Replies b [] s [] s := rfl

theorem Replies.cons {answer : Option Answer} (hi : (i.execute b).runFrom s = (.ok answer, t))
    (hp : Replies b p t later u) : Replies b (i :: p) s (answer.toList ++ later) u := by
  rw [Replies, replies, runFrom_bind_ok hi, runFrom_bind_ok hp]
  rfl

theorem Fails.cons {answer : Option Answer} (hi : (i.execute b).runFrom s = (.ok answer, t))
    (hp : Fails b p t) : Fails b (i :: p) s := by
  obtain ⟨e, u, hp⟩ := hp
  refine ⟨e, u, ?_⟩
  rw [replies, runFrom_bind_ok hi, runFrom_bind_error hp]

theorem Fails.head {e : BackendError} (hi : (i.execute b).runFrom s = (.error e, t)) (p : Program) :
    Fails b (i :: p) s := by
  refine ⟨e, t, ?_⟩
  rw [replies, runFrom_bind_error hi]

theorem replies_append (s : σ) : (replies b (p ++ q)).runFrom s
    = (replies b p >>= fun answers => replies b q >>= fun later => pure (answers ++ later)).runFrom s := by
  induction p generalizing s with
  | nil =>
    rw [List.nil_append, replies, runFrom_bind_ok (runFrom_pure [] s), runFrom_bind]
    generalize (replies b q).runFrom s = x
    obtain ⟨later, t⟩ := x
    cases later <;> rfl
  | cons i p ih =>
    simp only [List.cons_append, replies, runFrom_bind, ih, runFrom_pure]
    generalize (i.execute b).runFrom s = x
    obtain ⟨answer, s'⟩ := x
    cases answer with
    | error e => rfl
    | ok answer =>
      dsimp only
      generalize (replies b p).runFrom s' = y
      obtain ⟨answers, t⟩ := y
      cases answers with
      | error e => rfl
      | ok answers =>
        dsimp only
        generalize (replies b q).runFrom t = z
        obtain ⟨later, u⟩ := z
        cases later with
        | error e => rfl
        | ok later => simp

theorem Replies.append (h : Replies b p s answers t) (h' : Replies b q t later u) :
    Replies b (p ++ q) s (answers ++ later) u := by
  rw [Replies, replies_append, runFrom_bind_ok h, runFrom_bind_ok h']
  rfl

/-- What two parts answer together, they answer one after the other. -/
theorem Replies.of_append {all : List Answer} (h : Replies b (p ++ q) s all u) :
    ∃ answers t later, Replies b p s answers t ∧ Replies b q t later u := by
  rw [Replies, replies_append] at h
  obtain ⟨answers, t, hp, h⟩ := bind_ok_iff.1 h
  obtain ⟨later, u', hq, h⟩ := bind_ok_iff.1 h
  cases h
  exact ⟨answers, t, later, hp, hq⟩

theorem Fails.append_left (h : Fails b p s) (q : Program) : Fails b (p ++ q) s := by
  obtain ⟨e, t, h⟩ := h
  exact ⟨e, t, by rw [replies_append, runFrom_bind_error h]⟩

theorem Fails.append (h : Replies b p s answers t) (h' : Fails b q t) : Fails b (p ++ q) s := by
  obtain ⟨e, u, h'⟩ := h'
  exact ⟨e, u, by rw [replies_append, runFrom_bind_ok h, runFrom_bind_error h']⟩

theorem replies_or_fails (b : Backend σ) (p : Program) (s : σ) :
    (∃ answers t, Replies b p s answers t) ∨ Fails b p s := by
  cases h : ((replies b p).runFrom s).1 with
  | error e => exact .inr ⟨e, _, Prod.ext h rfl⟩
  | ok answers => exact .inl ⟨answers, _, Prod.ext h rfl⟩

/-- An execution of the program gives the last of all answers. -/
theorem execute_of_replies (h : Replies b p s answers t) (first : Option Answer) :
    (execute b p).runFrom ⟨s, first⟩ = (.ok (), ⟨t, answers.getLast?.or first⟩) := by
  induction p generalizing s answers first with
  | nil => cases h; rfl
  | cons i p ih =>
    obtain ⟨answer, u, hi, h⟩ := bind_ok_iff.1 h
    obtain ⟨later, v, hp, h⟩ := bind_ok_iff.1 h
    cases h
    have halong : ((i.execute b).along Execution.storeLens).runFrom ⟨s, first⟩ = (.ok answer, ⟨u, first⟩) := by
      rw [runFrom_along]
      simp only [Execution.storeLens, hi]
    rw [execute, runFrom_bind_ok halong, runFrom_bind_ok (runFrom_modify _ _), Execution.note,
      ih hp (answer.or first)]
    cases answer with
    | none => rfl
    | some a => cases later <;> simp [List.getLast?_cons]

theorem execute_of_fails (h : Fails b p s) (first : Option Answer) :
    ∃ e x, (execute b p).runFrom ⟨s, first⟩ = (.error e, x) := by
  induction p generalizing s first with
  | nil =>
    obtain ⟨e, t, h⟩ := h
    cases h
  | cons i p ih =>
    obtain ⟨e, t, h⟩ := h
    cases hi : (i.execute b).runFrom s with
    | mk answer u =>
      have halong : ((i.execute b).along Execution.storeLens).runFrom ⟨s, first⟩ = (answer, ⟨u, first⟩) := by
        rw [runFrom_along]
        simp only [Execution.storeLens, hi]
      cases answer with
      | error e' => exact ⟨e', _, runFrom_bind_error halong _⟩
      | ok answer =>
        rw [replies, runFrom_bind_ok hi] at h
        rcases replies_or_fails b p u with ⟨later, v, hp⟩ | hp
        · rw [runFrom_bind_ok hp] at h
          cases h
        · obtain ⟨e', x, hx⟩ := ih hp (answer.or first)
          refine ⟨e', x, ?_⟩
          rw [execute, runFrom_bind_ok halong, runFrom_bind_ok (runFrom_modify _ _)]
          exact hx

theorem replies_of_execute {first : Option Answer} {x : Execution σ}
    (h : (execute b p).runFrom ⟨s, first⟩ = (.ok (), x)) : ∃ answers, Replies b p s answers x.store := by
  rcases replies_or_fails b p s with ⟨answers, t, hp⟩ | hp
  · rw [execute_of_replies hp] at h
    cases h
    exact ⟨answers, hp⟩
  · obtain ⟨e, y, hy⟩ := execute_of_fails hp first
    rw [hy] at h
    cases h

theorem fails_of_execute {first : Option Answer} {e : BackendError} {x : Execution σ}
    (h : (execute b p).runFrom ⟨s, first⟩ = (.error e, x)) : Fails b p s := by
  rcases replies_or_fails b p s with ⟨answers, t, hp⟩ | hp
  · rw [execute_of_replies hp] at h
    cases h
  · exact hp

/-- Instructions that write give no answer. -/
theorem Replies.silent (h : Replies b p s answers t) (hp : ∀ i ∈ p, i.target? ≠ none) : answers = [] := by
  induction p generalizing s answers with
  | nil => cases h; rfl
  | cons i p ih =>
    obtain ⟨answer, u, hi, h⟩ := bind_ok_iff.1 h
    obtain ⟨later, v, hlater, h⟩ := bind_ok_iff.1 h
    cases h
    rw [ih hlater fun j hj => hp j (List.mem_cons_of_mem i hj), List.append_nil]
    have hsilent : ∀ {a : Action σ BackendError Unit},
        (Instruction.execute.silently a).runFrom s = (.ok answer, u) → answer = none := by
      intro a ha
      obtain ⟨_, _, -, hpure⟩ := bind_ok_iff.1 ha
      cases hpure
      rfl
    have hnone : answer = none := by
      cases i <;> first | exact hsilent hi | exact absurd rfl (hp _ List.mem_cons_self)
    rw [hnone]
    rfl

/-! ## Programs that yield what an evaluation gives -/

section Yields

variable {α β : Type} {P P' : α → List Answer → σ → Prop} {r : Option α}

/-- The program fails if an evaluation gives nothing, and else it ends with what the evaluation gives. -/
inductive Yields (b : Backend σ) (p : Program) (s : σ) (P : α → List Answer → σ → Prop) :
    Option α → Prop where
  | done {x : α} {answers : List Answer} {t : σ} (h : p.Replies b s answers t) (hP : P x answers t) :
      Yields b p s P (some x)
  | failed (h : p.Fails b s) : Yields b p s P none

theorem Yields.mono (h : Yields b p s P r)
    (hP : ∀ x answers t, p.Replies b s answers t → P x answers t → P' x answers t) : Yields b p s P' r := by
  cases h with
  | done h hx => exact .done h (hP _ _ _ h hx)
  | failed h => exact .failed h

theorem Yields.bind (h : Yields b p s P r) {f : α → Option β} {Q : β → List Answer → σ → Prop}
    (hf : ∀ x answers t, P x answers t →
      Yields b q t (fun y later u => Q y (answers ++ later) u) (f x)) :
    Yields b (p ++ q) s Q (r.bind f) := by
  cases h with
  | @done x answers t h hx =>
    rw [Option.bind_some]
    have hq := hf x answers t hx
    generalize f x = y at hq
    cases hq with
    | done h' hy => exact .done (h.append h') hy
    | failed h' => exact .failed (h'.append h)
  | failed h => exact .failed (h.append_left q)

end Yields

end Program

end Provenance
