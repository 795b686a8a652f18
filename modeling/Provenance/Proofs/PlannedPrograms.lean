import Provenance.Proofs.SingleAssignment

/-!
# Programs of plans

A resolved program carries out plans, one after the other, and reads between them. Each plan creates one
handle under a new name, and writes to nothing else. So what is known before the program, and what earlier
plans have made, stays as it is while the others are carried out.
-/

namespace Provenance

open Query Store SymbolTable Action

namespace Program

/-- A program that carries out plans; between them stand instructions that only read. -/
inductive IsPlanned : Program → Prop
  | nil : IsPlanned []
  | plan {p : Program} (hp : IsPlanned p) {plan : Plan} (hplan : plan.Proper) (n : Int) :
    IsPlanned (p ++ plan.instructions n)
  | reading {p : Program} (hp : IsPlanned p) {i : Instruction} (hi : i.target? = none) : IsPlanned (p ++ [i])

theorem creations_plan {plan : Plan} (hplan : plan.Proper) (n : Int) :
    creations (plan.instructions n) = [(plan.value n).shown] := hplan.creations n

theorem creates_plan {plan : Plan} (hplan : plan.Proper) {n : Int} {name : String} :
    Creates (plan.instructions n) name ↔ name = (plan.value n).shown := by
  rw [← mem_creations, creations_plan hplan, List.mem_singleton]

/-- A planned program writes to generated names that it creates. -/
theorem IsPlanned.targets {p : Program} (h : p.IsPlanned) :
    ∀ i ∈ p, ∀ name ∈ i.target?, p.Creates name ∧ IsGenerated name := by
  induction h with
  | nil => simp
  | @plan p hp plan hplan n ih =>
    intro i hi name hname
    obtain hi | hi := List.mem_append.1 hi
    · exact ⟨(ih i hi name hname).1.append _, (ih i hi name hname).2⟩
    · rw [(hplan.targets n i hi).1] at hname
      cases hname
      refine ⟨?_, (plan.isNumbered_value n).isGenerated⟩
      rw [← mem_creations, creations_append, creations_plan hplan]
      exact List.mem_append_right _ List.mem_cons_self
  | reading hp hi ih =>
    intro i hmem name hname
    obtain hmem | hmem := List.mem_append.1 hmem
    · exact ⟨(ih i hmem name hname).1.append _, (ih i hmem name hname).2⟩
    · rw [List.mem_singleton.1 hmem, hi] at hname
      cases hname

theorem isPlanned_instructions {plan : Plan} (hplan : plan.Proper) (n : Int) : IsPlanned (plan.instructions n) :=
  .plan .nil hplan n

theorem isPlanned_reading {i : Instruction} (hi : i.target? = none) : IsPlanned [i] := .reading .nil hi

/-- Own handles that a planned program does not create stay as they are. -/
theorem IsPlanned.table?_of_replies {σ : Type} {b : Backend σ} {view : σ → Database} {fails : Prop}
    (hb : b.IsDatabase view fails) {p : Program} (h : p.IsPlanned) (hnative : ∀ i ∈ p, i.isNative = false)
    {s t : σ} {answers : List Answer} (hreplies : p.Replies b s answers t) {name : String} (hname : IsOwn name)
    (hnew : ¬ p.Creates name) (side : Side) :
    (view t).table? ((⟨name⟩ : Graph).table side) = (view s).table? ((⟨name⟩ : Graph).table side) := by
  have horderly : ∀ i ∈ p, i.IsOrderly := fun i hi => ⟨hnative i hi, fun name hname => (h.targets i hi name hname).2⟩
  exact (hreplies.confined hb horderly fun i hi name hname => (h.targets i hi name hname).1).others _
    (not_touches_table (fun _ => isOwn_of_creates horderly) hname hnew side)

/-! ## Resolved programs -/

/-- A planned program that is ready for what is known, creates each of its handles once, under names that are
not known, and reads nothing into itself. -/
structure IsResolved (known : Value → Prop) (p : Program) : Prop where
  planned : p.IsPlanned
  ready : p.IsReady known
  distinct : (creations p).Nodup
  fresh : ∀ v, known v → v.IsHandle → ¬ p.Creates v.shown
  apart : ∀ i ∈ p, i.made? = none → ∀ v, i.written? = some v → ∀ s ∈ i.sources, s.shown ≠ v.shown

theorem IsReady.isNative {known : Value → Prop} {p : Program} (h : p.IsReady known) : ∀ i ∈ p, i.isNative = false := by
  induction p generalizing known with
  | nil => simp
  | cons i p ih => exact List.forall_mem_cons.2 ⟨h.1.isNative, ih h.2⟩

namespace IsResolved

variable {known : Value → Prop} {p q : Program}

theorem of_append (h : (p ++ q).IsResolved known) (hp : p.IsPlanned) : p.IsResolved known where
  planned := hp
  ready := (isReady_append.1 h.ready).1
  distinct := by
    have hdistinct := h.distinct
    rw [creations_append] at hdistinct
    exact hdistinct.of_append_left
  fresh v hv hhandle hcreates := h.fresh v hv hhandle (hcreates.append q)
  apart i hi := h.apart i (List.mem_append_left q hi)

/-- What holds of the empty program, and is kept by each plan that is carried out and each instruction that
only reads, holds of a resolved program. -/
theorem induction {motive : Program → Prop} (nil : motive [])
    (plan : ∀ p (plan : Plan) n, plan.Proper → IsResolved known p → IsResolved known (p ++ plan.instructions n) →
      motive p → motive (p ++ plan.instructions n))
    (reading : ∀ p i, i.target? = none → IsResolved known p → IsResolved known (p ++ [i]) → motive p →
      motive (p ++ [i]))
    (h : p.IsResolved known) : motive p := by
  have hplanned := h.planned
  induction hplanned with
  | nil => exact nil
  | plan hp hplan n ih => exact plan _ _ n hplan (h.of_append hp) h (ih (h.of_append hp))
  | reading hp hi ih => exact reading _ _ hi (h.of_append hp) h (ih (h.of_append hp))

/-- What may be used when a plan is carried out has another name than the handle that it makes. -/
theorem ne_value {plan : Plan} (hplan : plan.Proper) {n : Int} (h : (p ++ plan.instructions n).IsResolved known)
    {v : Value} (hv : known v ∨ Makes p v) (hhandle : v.IsHandle) : v.shown ≠ (plan.value n).shown := by
  intro heq
  have hcreates : Creates (plan.instructions n) v.shown := (creates_plan hplan).2 heq
  obtain hv | hv := hv
  · refine h.fresh v hv hhandle (mem_creations.1 ?_)
    rw [creations_append]
    exact List.mem_append_right _ (mem_creations.2 hcreates)
  · exact not_creates_of_nodup h.distinct hv.creates hcreates

end IsResolved

end Program

/-! ## Programs of queries -/

namespace Draft

variable {σ : Type} {d : Draft σ} {w : Workspace σ}

/-- No more names are created than numbers are given out. -/
theorem Allocates.length_le {n : Nat} (h : d.Allocates w.symbols.counter) (hgrows : Grows n ⟨w, []⟩ d)
    (hc : Text.isWord w.symbols.counter = true) (hn : n < 2 ^ 64) : (Program.creations d.program).length ≤ n := by
  obtain ⟨k, more, hk, -, hprogram, -, hnumbers⟩ := hgrows
  rw [List.nil_append] at hprogram
  subst hprogram
  by_contra hlt
  have hlt : n < (Program.creations d.program).length := by omega
  have hlast := h.numbers.get (i := n) (by rwa [length_numbersAfter]) hlt
  simp only [List.get_eq_getElem, numbersAfter, List.getElem_iterate] at hlast
  rw [← Function.iterate_succ_apply, iterate_wordAfter_eq_wrapped hc] at hlast
  obtain ⟨j, hj, hjk, hnumber⟩ := hnumbers _ (Program.mem_creations.1 (List.getElem_mem hlt))
  rw [iterate_wordAfter_eq_wrapped hc] at hnumber
  have heq := hlast.eq hnumber
  rw [wrapped_eq, wrapped_eq] at heq
  split at heq <;> split at heq <;> omega

end Draft

namespace Resolution

open Draft

variable {σ : Type} {b : Backend σ}

theorem statements_planned (ss : List Query.Statement) :
    Action.Preserves (fun d : Draft σ => Program.IsPlanned d.program) (ss.forM (statement b)) := by
  refine .forM fun s _ => statement_preserves_draft (fun p hp d hd => ?_) (fun _ _ _ hd _ _ _ => hd)
    (fun i hi d hd => hd.reading hi) fun _ _ hd => hd
  rw [p.runFrom_run]
  split
  · next n w _ => exact hd.plan hp n
  · exact hd

/-- The program of a query whose variables have the base graph, or names with numbers up to the counter. -/
theorem isResolved_of_draft {ss : List Query.Statement} {w w' : Workspace σ} {program : Program}
    (hcounter : Text.isWord w.symbols.counter = true) (hroom : Query.makings ss < 2 ^ 63)
    (hbound : ∀ var name, w.symbols.lookup? var = some name →
      name = Graph.base.name ∨ ∃ n : Nat, n ≤ w.symbols.counter ∧ IsNumbered n name)
    {known : Value → Prop} (hknown : ∀ v, known v → v.IsHandle → IsBound w.symbols v)
    (hresolve : (resolve b ss).runFrom w = (.ok program, w')) (hready : program.IsReady known) :
    program.IsResolved known := by
  obtain ⟨d, hd, rfl, hlaid, hallocates⟩ := exists_draft_of_resolve hresolve
  have hplanned := statements_planned (b := b) ss ⟨w, []⟩ .nil
  have hgrows := statements_spends (b := b) ss ⟨w, []⟩
  rw [hd] at hplanned hgrows
  have hlength := hallocates.length_le hgrows hcounter (by omega)
  have hdistinct := hallocates.nodup hcounter (by omega)
  have hfresh : ∀ v, IsBound w.symbols v → ¬ Program.Creates d.program v.shown := by
    rintro _ ⟨v, name, hname, rfl⟩
    rw [named_shown]
    exact hallocates.not_creates hcounter (by omega) (hbound v.name name hname)
  refine ⟨hplanned, hready, hdistinct, fun v hv hhandle => hfresh v (hknown v hv hhandle), fun i hi hmade v hv => ?_⟩
  obtain ⟨before, after, hp⟩ := List.append_of_mem hi
  exact ((hlaid.program.isSingleAssignment hdistinct hfresh).written before i after hp hmade v hv).2

end Resolution

end Provenance
