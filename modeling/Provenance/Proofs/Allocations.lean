import Mathlib.Data.List.Forall2
import Mathlib.Data.List.Iterate
import Provenance.Proofs.StoredCounter
import Provenance.Proofs.TwoLevels

/-!
# Names that resolution allocates

Whatever becomes of a query, the names that its program creates have the numbers after the counter,
one after the other and each once: a number is given out only for the instruction that follows. So the
counter tells how many names were allocated, and in what order.
-/

namespace Provenance

open Query Store SymbolTable

/-- The names that a program creates, in order. -/
def Program.creations (program : Program) : List String := program.filterMap Instruction.creates?

theorem Program.mem_creations {program : Program} {name : String} :
    name ∈ program.creations ↔ program.Creates name := by
  rw [creations, List.mem_filterMap]
  constructor
  · rintro ⟨i, hi, h⟩
    cases i <;> cases h
    · exact .inl hi
    · exact .inr hi
  · exact fun h => h.elim (fun hi => ⟨_, hi, rfl⟩) fun hi => ⟨_, hi, rfl⟩

@[simp] theorem Program.creations_append (p q : Program) :
    Program.creations (p ++ q) = p.creations ++ q.creations := List.filterMap_append

/-! ## Numbers in a row -/

/-- The `k` numbers that are given out after `c`. -/
def numbersAfter (c : Int) (k : Nat) : List Int := List.iterate wordAfter (wordAfter c) k

theorem numbersAfter_add (c : Int) (j k : Nat) :
    numbersAfter c (j + k) = numbersAfter c j ++ numbersAfter (wordAfter^[j] c) k := by
  rw [numbersAfter, List.iterate_add, ← Function.iterate_succ_apply, Function.iterate_succ_apply']
  rfl

theorem length_numbersAfter (c : Int) (k : Nat) : (numbersAfter c k).length = k :=
  List.length_iterate _ _ _

/-- The number that comes `k` numbers after a word. -/
theorem iterate_wordAfter_eq_wrapped {c : Int} (hc : Text.isWord c = true) (k : Nat) :
    wordAfter^[k] c = wrapped (c + k) := by
  induction k with
  | zero => simp [wrapped_of_isWord hc]
  | succ k ih =>
    rw [Function.iterate_succ_apply', ih, wordAfter_wrapped]
    push_cast
    rw [Int.add_assoc]

/-! ## Drafts -/

namespace Draft

variable {σ : Type} {b : Backend σ}

/-- Since the counter was `c`, one number was given out for each name that the program creates, in the
order of these names. -/
structure Allocates (c : Int) (d : Draft σ) : Prop where
  counter : d.workspace.symbols.counter = wordAfter^[(Program.creations d.program).length] c
  numbers : List.Forall₂ IsNumbered (numbersAfter c (Program.creations d.program).length)
    (Program.creations d.program)

namespace Allocates

variable {c : Int} {d d' : Draft σ}

theorem empty (w : Workspace σ) : Allocates w.symbols.counter ⟨w, []⟩ := ⟨rfl, .nil⟩

/-- What creates nothing and leaves the counter. -/
theorem of_creations (h : Allocates c d)
    (hcounter : d'.workspace.symbols.counter = d.workspace.symbols.counter)
    (hprogram : Program.creations d'.program = Program.creations d.program) : Allocates c d' :=
  ⟨by rw [hcounter, hprogram]; exact h.counter, by rw [hprogram]; exact h.numbers⟩

/-- One more name is created, with the next number. -/
theorem next (h : Allocates c d) {name : String}
    (hname : IsNumbered (wordAfter d.workspace.symbols.counter) name)
    (hcounter : d'.workspace.symbols.counter = wordAfter d.workspace.symbols.counter)
    (hprogram : Program.creations d'.program = Program.creations d.program ++ [name]) :
    Allocates c d' := by
  refine ⟨?_, ?_⟩
  · rw [hcounter, hprogram, List.length_append, List.length_singleton,
      Function.iterate_succ_apply', h.counter]
  · rw [hprogram, List.length_append, List.length_singleton, numbersAfter_add, ← h.counter]
    exact List.rel_append h.numbers (.cons hname .nil)

theorem run {p : Plan} (hp : p.Proper) : Action.Preserves (Allocates c) (p.run b) := by
  intro d h
  rw [p.runFrom_run]
  split
  · next n w hfresh =>
    obtain ⟨rfl, hw⟩ := Resolution.freshNumber_ok hfresh
    have hname : IsNumbered (wordAfter d.workspace.symbols.counter)
        (p.value (wordAfter d.workspace.symbols.counter)).shown := by
      cases p with
      | graph fill => exact .inl rfl
      | metadata fill => exact .inr rfl
    refine h.next hname (by rw [hw]) ?_
    rw [Program.creations_append]
    exact congrArg _ (hp.creations _)
  · next e w hfresh => exact h.of_creations (by rw [Spends.freshNumber_error hfresh]) rfl

end Allocates

end Draft

namespace Resolution

open Draft

variable {σ : Type} {b : Backend σ}

theorem statement_allocates (c : Int) (s : Query.Statement) :
    Action.Preserves (Allocates c) (statement b s) := by
  refine statement_preserves_draft (fun p hp => .run hp) (fun d var name h _ _ _ => h.of_creations rfl rfl)
    (fun i hi d h => h.of_creations rfl ?_) fun _ d h => h.of_creations rfl rfl
  have hnone : Program.creations [i] = [] := by
    cases i <;> first | rfl | cases hi
  rw [Program.creations_append, hnone, List.append_nil]

theorem statements_allocates (c : Int) (ss : List Query.Statement) :
    Action.Preserves (Allocates c) (ss.forM (statement b)) :=
  .forM fun s _ => statement_allocates c s

end Resolution

end Provenance
