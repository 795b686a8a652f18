import Provenance.Proofs.EvaluatedQueries
import Provenance.Proofs.FreshNames

/-!
# Single assignment

A resolved program consists of blocks. A block creates one handle and fills it at once; what it is filled
from was bound before the query or was filled in an earlier block. Between the blocks stand instructions
that only read. So every handle is written in one block only, nothing is read before it has been filled,
and no instruction reads what it writes, for the new handle is none of those in use.
-/

namespace Provenance

open Query Store SymbolTable

/-! ## What instructions read and write -/

namespace Instruction

/-- The handles that an instruction reads. -/
def sources : Instruction → List Value
  | createGraph _ => []
  | createMetadata _ => []
  | union _ source => [.graph source]
  | intersect _ lhs rhs => [.graph lhs, .graph rhs]
  | subtract _ minuend subtrahend => [.graph minuend, .graph subtrahend]
  | distinct _ source => [.graph source]
  | limit _ source _ => [.graph source]
  | insertVertices _ _ => []
  | insertEdges _ _ => []
  | collapse _ source _ => [.graph source]
  | endpoints _ subject _ => [.graph subject]
  | subgraph _ subject skeleton => [.graph subject, .graph skeleton]
  | lineage _ subject start _ _ => [.graph subject, .graph start]
  | path _ subject source destination _ => [.graph subject, .graph source, .graph destination]
  | shortestPath _ subject source destination _ =>
    [.graph subject, .graph source, .graph destination]
  | setMetadata _ _ source _ _ => [.graph source]
  | overwriteMetadata _ lhs rhs => [.metadata lhs, .metadata rhs]
  | stat target => [.graph target]
  | exportGraph target _ _ _ => [.graph target]
  | native _ => []

/-- The handle that an instruction writes to, with its kind. -/
def written? : Instruction → Option Value
  | createGraph target => some (.graph target)
  | createMetadata target => some (.metadata target)
  | union target _ => some (.graph target)
  | intersect target _ _ => some (.graph target)
  | subtract target _ _ => some (.graph target)
  | distinct target _ => some (.graph target)
  | limit target _ _ => some (.graph target)
  | insertVertices target _ => some (.graph target)
  | insertEdges target _ => some (.graph target)
  | collapse target _ _ => some (.graph target)
  | endpoints target _ _ => some (.graph target)
  | subgraph target _ _ => some (.graph target)
  | lineage target _ _ _ _ => some (.graph target)
  | path target _ _ _ _ => some (.graph target)
  | shortestPath target _ _ _ _ => some (.graph target)
  | setMetadata target _ _ _ _ => some (.metadata target)
  | overwriteMetadata target _ _ => some (.metadata target)
  | stat _ => none
  | exportGraph _ _ _ _ => none
  | native _ => none

theorem written?_map_shown (i : Instruction) : i.written?.map Value.shown = i.target? := by
  cases i <;> rfl

theorem written?_of_made? {i : Instruction} {v : Value} (h : i.made? = some v) : i.written? = some v := by
  cases i <;> simp_all [made?, written?]

theorem made?_map_shown (i : Instruction) : i.made?.map Value.shown = i.creates? := by
  cases i <;> rfl

/-- An instruction uses the handles that it reads and the one that it fills. -/
theorem mem_uses_iff {i : Instruction} {v : Value} (hv : v.IsHandle) :
    v ∈ i.uses ↔ v ∈ i.sources ∨ i.made? = none ∧ i.written? = some v := by
  have hids : ∀ ids : List Int, v ∉ ids.map Value.integer := fun ids hmem => by
    obtain ⟨n, -, rfl⟩ := List.mem_map.1 hmem
    exact hv.elim nofun nofun
  have hword : ∀ n, v ≠ .integer n := by
    rintro n rfl
    exact hv.elim nofun nofun
  cases i <;> simp [uses, sources, written?, made?, hids, hword, eq_comm, or_comm]

end Instruction

namespace Program

/-- A handle that is created and filled. -/
def Fills (p : Program) (v : Value) : Prop :=
  Makes p v ∧ ∃ i ∈ p, i.made? = none ∧ i.written? = some v

theorem Fills.append {p : Program} {v : Value} (h : Fills p v) (q : Program) : Fills (p ++ q) v := by
  obtain ⟨hmakes, i, hi, hfills⟩ := h
  exact ⟨makes_append.2 (.inl hmakes), i, List.mem_append_left q hi, hfills⟩

/-- A program of blocks: each creates a handle and then fills it from handles that are known, or that
earlier blocks have filled. -/
inductive Laid (known : Value → Prop) : Program → Prop
  | nil : Laid known []
  | block {p fills : Program} {first : Instruction} {v : Value} (hp : Laid known p)
      (hmade : first.made? = some v) (hne : fills ≠ [])
      (hfills : ∀ i ∈ fills, i.made? = none ∧ i.written? = some v ∧ ∀ s ∈ i.sources, known s ∨ Fills p s) :
      Laid known (p ++ first :: fills)
  | reading {p : Program} {i : Instruction} (hp : Laid known p) (hreads : i.written? = none)
      (hsources : ∀ s ∈ i.sources, known s ∨ Fills p s) : Laid known (p ++ [i])

/-- What may be read after a program: handles that are known or that it has filled. -/
def Offers (known : Value → Prop) (p : Program) (v : Value) : Prop := known v ∨ Fills p v

theorem Offers.append {known : Value → Prop} {p : Program} {v : Value} (h : Offers known p v) (q : Program) :
    Offers known (p ++ q) v := h.imp_right fun h => h.append q

end Program

/-! ## Plans -/

namespace Plan

/-- The plan's handle is filled, from wanted handles. -/
def Draws (wanted : Value → Prop) : Plan → Prop
  | .graph fill => ∀ t, fill t ≠ [] ∧ ∀ i ∈ fill t,
    i.made? = none ∧ i.written? = some (.graph t) ∧ ∀ s ∈ i.sources, wanted s
  | .metadata fill => ∀ t, (fill t).made? = none ∧ (fill t).written? = some (.metadata t) ∧
    ∀ s ∈ (fill t).sources, wanted s

/-- The instructions of a plan are one block. -/
theorem Draws.laid {known : Value → Prop} {p : Program} {plan : Plan} (hp : p.Laid known)
    (h : plan.Draws (p.Offers known)) (n : Int) :
    Program.Laid known (p ++ plan.instructions n) ∧ Program.Fills (p ++ plan.instructions n) (plan.value n) := by
  cases plan with
  | graph fill =>
    obtain ⟨hne, hfills⟩ := h ⟨graphPrefix ++ Text.decimal n⟩
    refine ⟨hp.block rfl hne hfills, Program.makes_append.2 (.inr (Program.makes_cons.2 (.inl rfl))), ?_⟩
    obtain ⟨i, hi⟩ := List.exists_mem_of_ne_nil _ hne
    exact ⟨i, List.mem_append_right p (List.mem_cons_of_mem _ hi), (hfills i hi).1, (hfills i hi).2.1⟩
  | metadata fill =>
    obtain ⟨hmade, hwritten, hsources⟩ := h ⟨metadataPrefix ++ Text.decimal n⟩
    refine ⟨hp.block rfl (List.cons_ne_nil _ _) (List.forall_mem_singleton.2 ⟨hmade, hwritten, hsources⟩),
      Program.makes_append.2 (.inr (Program.makes_cons.2 (.inl rfl))), _, ?_, hmade, hwritten⟩
    exact List.mem_append_right p (List.mem_cons_of_mem _ List.mem_cons_self)

end Plan

namespace Resolution

variable {wanted : Value → Prop}

theorem planInfix_draws {operator : String} {lhs rhs : Value} {p : Plan}
    (h : planInfix operator lhs rhs = some p) (hlhs : wanted lhs) (hrhs : wanted rhs) : p.Draws wanted := by
  unfold planInfix at h
  split at h <;> cases h <;>
    simp [Plan.Draws, Instruction.made?, Instruction.written?, Instruction.sources, hlhs, hrhs]

/-- Operands of infix operators are handles. -/
theorem planInfix_handles {operator : String} {lhs rhs : Value} {p : Plan}
    (h : planInfix operator lhs rhs = some p) : lhs.IsHandle ∧ rhs.IsHandle := by
  unfold planInfix at h
  split at h <;> cases h <;> simp [Value.IsHandle, Value.kind]

theorem planCall_draws {o : Operation} {subject : Option Value} {operands : List Value} {p : Plan}
    (h : planCall o subject operands = some p) (hsubject : ∀ v ∈ subject, v.IsHandle → wanted v)
    (hoperands : ∀ v ∈ operands, v.IsHandle → wanted v) : p.Draws wanted := by
  unfold planCall at h
  split at h <;> simp only [Option.mem_def, Option.some.injEq, forall_eq', List.mem_cons,
    forall_eq_or_imp, List.not_mem_nil, false_implies, implies_true, Value.IsHandle, Value.kind,
    reduceCtorEq, or_false, true_implies] at hsubject hoperands
  · obtain ⟨ids, -, rfl⟩ := Option.map_eq_some_iff.1 h
    simp [Plan.Draws, Instruction.made?, Instruction.written?, Instruction.sources]
  · obtain ⟨ids, -, rfl⟩ := Option.map_eq_some_iff.1 h
    simp [Plan.Draws, Instruction.made?, Instruction.written?, Instruction.sources]
  · obtain ⟨direction, -, h⟩ := Option.bind_eq_some_iff.1 h
    rw [planCounted_some h]
    simp [Plan.Draws, Instruction.made?, Instruction.written?, Instruction.sources, hsubject, hoperands]
  · rw [planCounted_some h]
    simp [Plan.Draws, Instruction.made?, Instruction.written?, Instruction.sources, hsubject, hoperands]
  · rw [planCounted_some h]
    simp [Plan.Draws, Instruction.made?, Instruction.written?, Instruction.sources, hsubject, hoperands]
  · cases h
    simp [Plan.Draws, Instruction.made?, Instruction.written?, Instruction.sources, hsubject, hoperands]
  · cases h
    simp [Plan.Draws, Instruction.made?, Instruction.written?, Instruction.sources, hsubject]
  · obtain ⟨fields, -, rfl⟩ := Option.map_eq_some_iff.1 h
    simp [Plan.Draws, Instruction.made?, Instruction.written?, Instruction.sources, hsubject]
  · rw [planCounted_some h]
    simp [Plan.Draws, Instruction.made?, Instruction.written?, Instruction.sources, hsubject]
  · cases h
    simp [Plan.Draws, Instruction.made?, Instruction.written?, Instruction.sources, hsubject]
  · cases h
    simp [Plan.Draws, Instruction.made?, Instruction.written?, Instruction.sources, hsubject]
  · cases h

end Resolution

/-! ## Drafts -/

variable {σ : Type} {b : Backend σ} {known : Value → Prop} {d d' : Draft σ}

namespace Draft

/-- The program consists of blocks so far, and what variables are bound to may be read. -/
structure Laid (known : Value → Prop) (d : Draft σ) : Prop where
  program : Program.Laid known d.program
  bound : ∀ (v : Variable) name, d.workspace.symbols.lookup? v.name = some name →
    Program.Offers known d.program (Resolution.named v name)

/-- What is added to the program takes nothing away from the variables. -/
theorem Laid.extends (h : d.Laid known) (hext : Extends d d') (hp : Program.Laid known d'.program) :
    d'.Laid known := by
  obtain ⟨more, hprogram, -⟩ := hext.program
  refine ⟨hp, fun v name hname => ?_⟩
  rw [hext.lookup?] at hname
  rw [hprogram]
  exact (h.bound v name hname).append more

theorem Extends.offers {v : Value} (hext : Extends d d') (h : Program.Offers known d.program v) :
    Program.Offers known d'.program v := by
  obtain ⟨more, hprogram, -⟩ := hext.program
  rw [hprogram]
  exact h.append more

end Draft

namespace Resolution

open Draft

theorem run_laid {p : Plan} {x : Value} (hp : p.Proper) (hdraws : p.Draws (Program.Offers known d.program))
    (h : d.Laid known) (hrun : (p.run b).runFrom d = (.ok x, d')) :
    d'.Laid known ∧ Program.Offers known d'.program x := by
  obtain ⟨hext, -⟩ := run_extends hp hrun
  obtain ⟨n, w, -, rfl, rfl⟩ := p.run_ok hrun
  obtain ⟨hlaid, hfills⟩ := hdraws.laid h.program n
  exact ⟨h.extends hext hlaid, .inr hfills⟩

mutual

/-- An expression that is evaluated adds blocks, and its value may be read then. -/
theorem evaluate_laid : ∀ (e : Expr) {d d' : Draft σ} {x : Value}, d.Laid known →
    (evaluate b e).runFrom d = (.ok x, d') →
    d'.Laid known ∧ (x.IsHandle → Program.Offers known d'.program x)
  | .integer pos n, d, d', x, h, hok => by
    rw [evaluate] at hok
    cases hok
    exact ⟨h, fun hx => hx.elim nofun nofun⟩
  | .text pos s, d, d', x, h, hok => by
    rw [evaluate] at hok
    cases hok
    exact ⟨h, fun hx => hx.elim nofun nofun⟩
  | .name pos word, d, d', x, h, hok => by
    rw [evaluate] at hok
    cases hok
  | .var pos v, d, d', x, h, hok => by
    rw [evaluate] at hok
    obtain ⟨name, hname, rfl, rfl⟩ := valueOf_ok hok
    exact ⟨h, fun _ => h.bound v name hname⟩
  | .call pos function operands, d, d', x, h, hok => by
    obtain ⟨o, values, d₁, p, -, hvalues, hp, hrun⟩ := evaluate_call_ok hok
    obtain ⟨h₁, hoffers⟩ := evaluateAll_laid operands h hvalues
    obtain ⟨h', hx⟩ := run_laid (planCall_proper hp) (planCall_draws hp nofun hoffers) h₁ hrun
    exact ⟨h', fun _ => hx⟩
  | .apply pos subject operator operands, d, d', x, h, hok => by
    cases hoperator : isInfix operator with
    | true =>
      obtain ⟨k, e, es, lhs, d₁, rhs, d₂, p, -, rfl, hlhs, hrhs, hp, hrun⟩ := evaluate_infix_ok hoperator hok
      obtain ⟨h₁, hl⟩ := evaluate_laid subject h hlhs
      obtain ⟨h₂, hr⟩ := evaluate_laid e h₁ hrhs
      obtain ⟨hhl, hhr⟩ := planInfix_handles hp
      obtain ⟨h', hx⟩ := run_laid (planInfix_proper hp)
        (planInfix_draws hp ((evaluate_extends e hrhs).1.offers (hl hhl)) (hr hhr)) h₂ hrun
      exact ⟨h', fun _ => hx⟩
    | false =>
      obtain ⟨o, value, d₁, values, d₂, p, -, hvalue, hvalues, hp, hrun⟩ := evaluate_method_ok hoperator hok
      obtain ⟨h₁, hv⟩ := evaluate_laid subject h hvalue
      obtain ⟨h₂, hvs⟩ := evaluateAll_laid operands h₁ hvalues
      have hsubject : ∀ v ∈ some value, v.IsHandle → Program.Offers known d₂.program v := by
        rintro v ⟨⟩ hv'
        exact (evaluateAll_extends operands hvalues).offers (hv hv')
      obtain ⟨h', hx⟩ := run_laid (planCall_proper hp) (planCall_draws hp hsubject hvs) h₂ hrun
      exact ⟨h', fun _ => hx⟩

theorem evaluateAll_laid : ∀ (es : List Expr) {d d' : Draft σ} {xs : List Value}, d.Laid known →
    (evaluateAll b es).runFrom d = (.ok xs, d') →
    d'.Laid known ∧ ∀ x ∈ xs, x.IsHandle → Program.Offers known d'.program x
  | [], d, d', xs, h, hok => by
    rw [evaluateAll] at hok
    cases hok
    exact ⟨h, nofun⟩
  | e :: es, d, d', xs, h, hok => by
    obtain ⟨y, d₁, ys, rfl, hy, hys⟩ := evaluateAll_cons_ok hok
    obtain ⟨h₁, hoffers⟩ := evaluate_laid e h hy
    obtain ⟨h', hothers⟩ := evaluateAll_laid es h₁ hys
    refine ⟨h', List.forall_mem_cons.2 ⟨fun hx => ?_, hothers⟩⟩
    exact (evaluateAll_extends es hys).offers (hoffers hx)
end

/-! ### Statements -/

theorem assigned_laid {pos : Position} {target : Variable} {op : AssignOp} {value : Expr} {x : Value}
    (h : d.Laid known) (hok : (assigned b pos target op value).runFrom d = (.ok x, d')) :
    d'.Laid known ∧ Program.Offers known d'.program x := by
  have hx := kind_isHandle target (assigned_kind hok)
  obtain ⟨-, -, hvalue⟩ | ⟨operator, name, operand, d₁, p, -, hname, hoperand, hp, hrun⟩ := assigned_ok hok
  · obtain ⟨h', hoffers⟩ := evaluate_laid value h hvalue
    exact ⟨h', hoffers hx⟩
  · obtain ⟨h₁, hoffers⟩ := evaluate_laid value h hoperand
    exact run_laid (planInfix_proper hp) (planInfix_draws hp
      ((evaluate_extends value hoperand).1.offers (h.bound target name hname))
      (hoffers (planInfix_handles hp).2)) h₁ hrun

/-- A command that succeeds reads its arguments, or forgets the bindings. -/
theorem perform_reads {c : Command} {words : List String} {values : List Value} {pos : Position}
    (hok : (perform c words values pos).runFrom d = (.ok (), d')) :
    (∃ i : Instruction, d' = { d with program := d.program ++ [i] } ∧ i.written? = none ∧
        ∀ s ∈ i.sources, s ∈ values ∧ s.IsHandle) ∨
      d' = { d with workspace.symbols := d.workspace.symbols.clear } := by
  unfold perform at hok
  split at hok <;> cases hok
  case h_5 => exact .inr rfl
  all_goals exact .inl ⟨_, rfl, rfl, by simp [Instruction.sources, Value.IsHandle, Value.kind]⟩

theorem statement_laid {s : Query.Statement} (h : d.Laid known)
    (hok : (statement b s).runFrom d = (.ok (), d')) : d'.Laid known := by
  cases s with
  | assignment pos target op value =>
    obtain ⟨hne, x, d₁, hx, rfl⟩ := assign_ok hok
    obtain ⟨h₁, hoffers⟩ := assigned_laid h hx
    refine ⟨h₁.program, fun v name hname => ?_⟩
    by_cases hv : v.name = target.name
    · obtain rfl : v = target := by cases v; cases target; exact congrArg _ hv
      simp only [SymbolTable.lookup?, if_neg hne, OrderedMap.find?_insert, if_true,
        Option.some.injEq] at hname
      rw [← hname, named_of_kind (assigned_kind hx)]
      exact hoffers
    · refine h₁.bound v name ?_
      simpa only [SymbolTable.lookup?, OrderedMap.find?_insert, if_neg hv] using hname
  | command pos name arguments =>
    obtain ⟨c, words, others, values, d₁, -, -, hvalues, hperform⟩ := command_ok hok
    obtain ⟨h₁, hoffers⟩ := evaluateAll_laid others h hvalues
    obtain ⟨i, rfl, hreads, hsources⟩ | rfl := perform_reads hperform
    · exact ⟨h₁.program.reading hreads fun s hs => hoffers s (hsources s hs).1 (hsources s hs).2,
        fun v name hname => (h₁.bound v name hname).append [i]⟩
    · refine ⟨h₁.program, fun v name hname => h₁.bound v name ?_⟩
      -- only the base graph is still bound
      have hbase : v.name = baseVariable := by
        by_contra hv
        cases (if_neg hv).symm.trans hname
      simpa only [SymbolTable.lookup?, if_pos hbase] using hname

end Resolution

/-! ## The order of a program -/

namespace Program

/-- What holds of each instruction and those before it. -/
def Everywhere (Q : Program → Instruction → Prop) (p : Program) : Prop :=
  ∀ before i after, p = before ++ i :: after → Q before i

theorem Everywhere.append {Q : Program → Instruction → Prop} {p q : Program} (hp : Everywhere Q p)
    (hq : Everywhere (fun before => Q (p ++ before)) q) : Everywhere Q (p ++ q) := by
  intro before i after h
  obtain ⟨more, rfl, hmore⟩ | ⟨rest, rfl, hrest⟩ := List.append_eq_append_iff.1 h
  · exact hq more i after hmore
  · cases rest with
    | nil => simpa using hq [] i after hrest.symm
    | cons j rest =>
      obtain ⟨rfl, rfl⟩ := List.cons.inj hrest
      exact hp before i rest rfl

theorem Everywhere.singleton {Q : Program → Instruction → Prop} {i : Instruction} (h : Q [] i) :
    Everywhere Q [i] := by
  intro before j after hsplit
  obtain ⟨rfl, hrest⟩ | ⟨more, -, hmore⟩ := List.cons_eq_append_iff.1 hsplit
  · cases hrest
    exact h
  · simp at hmore

/-- An instruction creates a handle; or it fills the one that was created last, from handles that are known
or were filled before that was created; or it only reads. -/
inductive Placed (known : Value → Prop) (before : Program) (i : Instruction) : Prop
  | creation (hmade : i.made? ≠ none)
  | filling {earlier between : Program} {first : Instruction} {v : Value}
      (hbefore : before = earlier ++ first :: between) (hmade : first.made? = some v)
      (hbetween : ∀ j ∈ between, j.made? = none) (hnone : i.made? = none) (hwritten : i.written? = some v)
      (hsources : ∀ s ∈ i.sources, Offers known earlier s)
  | reading (hreads : i.written? = none) (hsources : ∀ s ∈ i.sources, Offers known before s)

theorem Laid.placed {known : Value → Prop} {p : Program} (h : p.Laid known) :
    p.Everywhere (Placed known) := by
  induction h with
  | nil => exact fun before i after h => by simp at h
  | @block p fills first v _ hmade _ hfills ih =>
    refine ih.append fun before i after hsplit => ?_
    obtain ⟨rfl, hrest⟩ | ⟨between, rfl, hbetween⟩ := List.cons_eq_append_iff.1 hsplit
    · cases hrest
      exact .creation (by simp [hmade])
    · have hi := hfills i (by rw [hbetween]; exact List.mem_append_right _ List.mem_cons_self)
      exact .filling rfl hmade (fun j hj => (hfills j (hbetween ▸ List.mem_append_left _ hj)).1)
        hi.1 hi.2.1 hi.2.2
  | reading _ hreads hsources ih =>
    exact ih.append (.singleton (.reading hreads (by rwa [List.append_nil])))

/-! ### Single assignment -/

section SingleAssignment

variable {known : Value → Prop} {p q : Program} {u v : Value} {name : String}

theorem creations_eq (p : Program) : creations p = (p.filterMap Instruction.made?).map Value.shown := by
  rw [creations, List.map_filterMap]
  exact congrArg (List.filterMap · p) (funext fun i => i.made?_map_shown.symm)

theorem Makes.creates (h : Makes p v) : Creates p v.shown := by
  obtain ⟨i, hi, hv⟩ := h
  rw [← mem_creations, creations_eq]
  exact List.mem_map_of_mem (List.mem_filterMap.2 ⟨i, hi, hv⟩)

/-- What is created once is not created on both sides. -/
theorem not_creates_of_nodup (h : (creations (p ++ q)).Nodup) (hp : Creates p name) : ¬ Creates q name := by
  intro hq
  rw [creations_append, List.nodup_append] at h
  exact h.2.2 name (mem_creations.2 hp) name (mem_creations.2 hq) rfl

/-- Handles that are created under one name are one handle. -/
theorem Makes.eq_of_shown (h : (creations p).Nodup) (hu : Makes p u) (hv : Makes p v)
    (heq : u.shown = v.shown) : u = v := by
  rw [creations_eq] at h
  exact List.inj_on_of_nodup_map h (List.mem_filterMap.2 hu) (List.mem_filterMap.2 hv) heq

/-- A program that creates each handle once, fills it before it creates another, reads no handle before that
is filled, and uses each as what it was created as. -/
structure IsSingleAssignment (known : Value → Prop) (p : Program) : Prop where
  distinct : (creations p).Nodup
  written : p.Everywhere fun before i => i.made? = none → ∀ v, i.written? = some v →
    Makes before v ∧ ∀ s ∈ i.sources, s.shown ≠ v.shown
  settled : ∀ before first after, p = before ++ first :: after → first.made? ≠ none →
    ∀ name, Creates before name → ∀ i ∈ after, i.target? ≠ some name
  read : p.Everywhere fun before i => ∀ s ∈ i.sources, known s ∨ Fills before s
  kinds : ∀ v, Makes p v → ∀ i ∈ p, ∀ u, u ∈ i.sources ∨ i.written? = some u → u.shown = v.shown → u = v

/-- A handle that is read is known, or was filled. -/
theorem Placed.offers {before : Program} {i : Instruction} (h : Placed known before i) :
    ∀ s ∈ i.sources, Offers known before s := by
  cases h with
  | creation hmade => cases i <;> simp [Instruction.made?, Instruction.sources] at hmade ⊢
  | filling hbefore _ _ _ _ hsources =>
    rw [hbefore]
    exact fun s hs => (hsources s hs).append _
  | reading _ hsources => exact hsources

/-- What is written was created last. -/
theorem Placed.makes {before : Program} {i : Instruction} (h : Placed known before i) (hnone : i.made? = none)
    (hwritten : i.written? = some v) : ∃ earlier first between, before = earlier ++ first :: between ∧
      first.made? = some v ∧ (∀ j ∈ between, j.made? = none) ∧ ∀ s ∈ i.sources, Offers known earlier s := by
  cases h with
  | creation hmade => exact absurd hnone hmade
  | filling hbefore hmade hbetween _ hwritten' hsources =>
    cases hwritten.symm.trans hwritten'
    exact ⟨_, _, _, hbefore, hmade, hbetween, hsources⟩
  | reading hreads _ => simp [hreads] at hwritten

section Distinct

variable (h : p.Laid known) (hdistinct : (creations p).Nodup)
include h hdistinct

/-- A handle that was created is not written after another one was. -/
theorem Laid.settled {before after : Program} {next : Instruction} (hp : p = before ++ next :: after)
    (hnext : next.made? ≠ none) (hname : Creates before name) {i : Instruction} (hi : i ∈ after) :
    i.target? ≠ some name := by
  subst hp
  intro htarget
  have hlater : ¬ Creates (next :: after) name := not_creates_of_nodup hdistinct hname
  rw [← i.written?_map_shown, Option.map_eq_some_iff] at htarget
  obtain ⟨v, hv, rfl⟩ := htarget
  cases hmade : i.made? with
  | some w =>
    cases hv.symm.trans (Instruction.written?_of_made? hmade)
    exact hlater (Makes.creates ⟨i, List.mem_cons_of_mem next hi, hmade⟩)
  | none =>
    obtain ⟨between, rest, rfl⟩ := List.append_of_mem hi
    obtain ⟨earlier, first, since, hbefore, hfirst, hsince, -⟩ :=
      (h.placed (before ++ next :: between) i rest (by simp)).makes hmade hv
    -- what is written was created last: after `next`, by `next` itself, or with `next` in between
    obtain ⟨more, -, hmore⟩ | ⟨more, -, hmore⟩ := List.append_eq_append_iff.1 hbefore
    · refine hlater (Makes.creates ⟨first, ?_, hfirst⟩)
      rw [← List.cons_append, hmore]
      simp
    · obtain ⟨-, hmore⟩ | ⟨others, -, rfl⟩ := List.cons_eq_append_iff.1 hmore
      · cases hmore
        exact hlater (Makes.creates ⟨next, List.mem_cons_self, hfirst⟩)
      · exact hnext (hsince next (by simp))

variable (hfresh : ∀ v, known v → ¬ Creates p v.shown)
include hfresh

/-- A handle that is read is not under a name that is created later. -/
theorem Laid.shown_ne {earlier later : Program} {s : Value} (hp : p = earlier ++ later)
    (hs : Offers known earlier s) (hcreates : Creates later name) : s.shown ≠ name := by
  subst hp
  rintro rfl
  obtain hknown | hfills := hs
  · exact hfresh s hknown (mem_creations.1 (by
      rw [creations_append]; exact List.mem_append_right _ (mem_creations.2 hcreates)))
  · exact not_creates_of_nodup hdistinct hfills.1.creates hcreates

/-- What is written was created, under another name than what is read. -/
theorem Laid.written : p.Everywhere fun before i => i.made? = none → ∀ v, i.written? = some v →
    Makes before v ∧ ∀ s ∈ i.sources, s.shown ≠ v.shown := by
  rintro before i after hp hnone v hv
  obtain ⟨earlier, first, between, rfl, hmade, -, hsources⟩ := (h.placed before i after hp).makes hnone hv
  refine ⟨⟨first, by simp, hmade⟩, fun s hs => ?_⟩
  exact h.shown_ne hdistinct hfresh (by rw [hp]; simp : p = earlier ++ (first :: between ++ i :: after))
    (hsources s hs) (Makes.creates ⟨first, by simp, hmade⟩)

/-- A handle under the name of one that is created is that one. -/
theorem Laid.kinds (hv : Makes p v) {i : Instruction} (hi : i ∈ p) (hu : u ∈ i.sources ∨ i.written? = some u)
    (heq : u.shown = v.shown) : u = v := by
  obtain ⟨before, after, hp⟩ := List.append_of_mem hi
  have hmakes : Makes before u ∨ i.made? = some u := by
    obtain hu | hu := hu
    · obtain hknown | hfills := (h.placed before i after hp).offers u hu
      · exact absurd (heq ▸ hv.creates) (hfresh u hknown)
      · exact .inl hfills.1
    · cases hmade : i.made? with
      | none => exact .inl (h.written hdistinct hfresh before i after hp hmade u hu).1
      | some w => exact .inr (hu.symm.trans (Instruction.written?_of_made? hmade)).symm
  refine Makes.eq_of_shown hdistinct ?_ hv heq
  rw [hp]
  exact makes_append.2 (hmakes.imp_right fun h => makes_cons.2 (.inl h))

/-- A program of blocks that creates each handle once, under a name that is not known. -/
theorem Laid.isSingleAssignment : IsSingleAssignment known p where
  distinct := hdistinct
  written := h.written hdistinct hfresh
  settled _ _ _ hp hnext _ hname _ hi := h.settled hdistinct hp hnext hname hi
  read before i after hp := (h.placed before i after hp).offers
  kinds _ hv _ hi _ hu heq := h.kinds hdistinct hfresh hv hi hu heq

end Distinct

end SingleAssignment

end Program

/-! ## Fresh names -/

namespace Draft.Allocates

variable {c : Int}

/-- Names with numbers that do not come round are distinct. -/
theorem nodup (h : d.Allocates c) (hc : Text.isWord c = true)
    (hroom : (Program.creations d.program).length ≤ 2 ^ 64) : (Program.creations d.program).Nodup := by
  rw [List.nodup_iff_injective_get]
  intro i j hij
  have hnumber : ∀ i : Fin (Program.creations d.program).length,
      IsNumbered (wrapped (c + (i + 1 : Nat))) ((Program.creations d.program).get i) := fun i => by
    have h := h.numbers.get (i := i) (by rw [length_numbersAfter]; exact i.2) i.2
    simp only [List.get_eq_getElem, numbersAfter, List.getElem_iterate] at h
    rwa [← Function.iterate_succ_apply, iterate_wordAfter_eq_wrapped hc] at h
  have heq := (hnumber i).eq (hij ▸ hnumber j)
  rw [wrapped_eq, wrapped_eq] at heq
  have hi := i.2
  have hj := j.2
  refine Fin.ext ?_
  split at heq <;> split at heq <;> omega

/-- The base graph, and names with numbers up to the counter, are not created. -/
theorem not_creates (h : d.Allocates c) (hc : Text.isWord c = true)
    (hroom : (Program.creations d.program).length ≤ 2 ^ 63) {name : String}
    (hname : name = Graph.base.name ∨ ∃ n : Nat, n ≤ c ∧ IsNumbered n name) :
    ¬ Program.Creates d.program name := by
  intro hcreates
  obtain ⟨i, hi, hnumber⟩ := h.number hcreates
  obtain rfl | ⟨n, hn, hold⟩ := hname
  · exact not_isGenerated_base hnumber.isGenerated
  · rw [iterate_wordAfter_eq_wrapped hc] at hnumber
    have heq := hold.eq hnumber
    rw [Text.isWord, Bool.and_eq_true, decide_eq_true_eq, decide_eq_true_eq] at hc
    rw [wrapped_eq] at heq
    split at heq <;> omega

end Draft.Allocates

/-! ## Queries -/

namespace Resolution

/-- A value that a variable has, the base graph among them. -/
def IsBound (t : SymbolTable) (x : Value) : Prop :=
  ∃ (v : Variable) (name : String), t.lookup? v.name = some name ∧ x = named v name

/-- A resolved program is that of a draft, which consists of blocks and has numbers for what it creates. -/
theorem exists_draft_of_resolve {ss : List Query.Statement} {w w' : Workspace σ} {program : Program}
    (hresolve : (resolve b ss).runFrom w = (.ok program, w')) :
    ∃ d, (ss.forM (statement b)).runFrom ⟨w, []⟩ = (.ok (), d) ∧ d.program = program ∧
      d.Laid (IsBound w.symbols) ∧ d.Allocates w.symbols.counter := by
  obtain ⟨d, hd, -, rfl⟩ := resolve_ok hresolve
  have hlaid : d.Laid (IsBound w.symbols) := statements_induction (fun s _ _ _ => statement_laid)
    ⟨.nil, fun v name hname => .inl ⟨v, name, hname, rfl⟩⟩ hd
  have hallocates : d.Allocates w.symbols.counter := by
    have h := statements_allocates (b := b) w.symbols.counter ss ⟨w, []⟩ (.empty w)
    rwa [hd] at h
  exact ⟨d, hd, rfl, hlaid, hallocates⟩

/-- The program of a query whose variables have the base graph, or names with numbers up to the counter: it
is of single assignment, and what it creates has the numbers after the counter, one after the other. -/
theorem resolve_isSingleAssignment {ss : List Query.Statement} {w w' : Workspace σ} {program : Program}
    (hcounter : Text.isWord w.symbols.counter = true)
    (hbound : ∀ var name, w.symbols.bindings.find? var = some name →
      name = Graph.base.name ∨ ∃ n : Nat, n ≤ w.symbols.counter ∧ IsNumbered n name)
    (hresolve : (resolve b ss).runFrom w = (.ok program, w'))
    (hroom : (Program.creations program).length ≤ 2 ^ 63) :
    Program.IsSingleAssignment (IsBound w.symbols) program ∧
      List.Forall₂ IsNumbered (numbersAfter w.symbols.counter (Program.creations program).length)
        (Program.creations program) ∧
      (w.symbols.counter + (Program.creations program).length < 2 ^ 63 →
        Consecutive w.symbols.counter (Program.creations program)) := by
  obtain ⟨d, -, rfl, hlaid, hallocates⟩ := exists_draft_of_resolve hresolve
  refine ⟨hlaid.program.isSingleAssignment (hallocates.nodup hcounter (by omega)) ?_, hallocates.numbers,
    hallocates.consecutive hcounter⟩
  rintro x ⟨v, name, hname, rfl⟩
  rw [named_shown]
  refine hallocates.not_creates hcounter hroom ?_
  rw [SymbolTable.lookup?] at hname
  split at hname
  · cases hname
    exact .inl rfl
  · exact hbound v.name name hname

/-- The graph gets a second variable, and the first variable another graph that is made from it. -/
def annotatedGraph : List Query.Statement :=
  [.assignment default ⟨"$b"⟩ .set (.var default ⟨"$a"⟩),
   .assignment default ⟨"$a"⟩ .union (.apply default (.var default ⟨"$base"⟩) "-"
    [.call default "vertices" [.integer default 1]]),
   .assignment default ⟨"@m"⟩ .set (.apply default (.var default ⟨"$a"⟩) "setVertexMetadata"
    [.text default "color", .text default "red"]),
   .command default "stat" [.var default ⟨"$b"⟩]]

def annotatedGraphProgram : Program :=
  [.createGraph ⟨"trace_2"⟩, .insertVertices ⟨"trace_2"⟩ [1],
   .createGraph ⟨"trace_3"⟩, .subtract ⟨"trace_3"⟩ .base ⟨"trace_2"⟩,
   .createGraph ⟨"trace_4"⟩, .union ⟨"trace_4"⟩ ⟨"trace_1"⟩, .union ⟨"trace_4"⟩ ⟨"trace_3"⟩,
   .createMetadata ⟨"meta_5"⟩, .setMetadata ⟨"meta_5"⟩ .vertex ⟨"trace_4"⟩ "color" "red",
   .stat ⟨"trace_1"⟩]

theorem resolve_isSingleAssignment_annotated : afterTwoVertices.symbols.bindings = [("$a", "trace_1")] ∧
    (∃ w', (resolve Backend.memory annotatedGraph).runFrom afterTwoVertices
      = (.ok annotatedGraphProgram, w')) ∧
    annotatedGraphProgram.IsSingleAssignment (IsBound afterTwoVertices.symbols) ∧
    Consecutive 1 ["trace_2", "trace_3", "trace_4", "meta_5"] := by
  have hbindings : afterTwoVertices.symbols.bindings = [("$a", "trace_1")] := by decide +kernel
  have hcounter : afterTwoVertices.symbols.counter = 1 := by decide +kernel
  have hresolve : (resolve Backend.memory annotatedGraph).runFrom afterTwoVertices
      = (.ok annotatedGraphProgram, ((resolve Backend.memory annotatedGraph).runFrom afterTwoVertices).2) :=
    Prod.ext (by decide +kernel) rfl
  obtain ⟨hsingle, -, hnumbers⟩ := resolve_isSingleAssignment (by rw [hcounter]; decide)
    (by
      intro var name hname
      rw [hbindings, OrderedMap.find?_cons] at hname
      split at hname
      · cases hname
        exact .inr ⟨1, by rw [hcounter]; decide, .inl (by decide)⟩
      · cases hname)
    hresolve (by decide)
  rw [hcounter] at hnumbers
  exact ⟨hbindings, ⟨_, hresolve⟩, hsingle, hnumbers (by decide)⟩

end Resolution

end Provenance
