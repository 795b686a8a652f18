import Provenance.Proofs.ReadyPrograms

/-!
# Queries that are resolved to ready programs

While a query is resolved, every variable has a value that was known before or is made in the program,
and so has every expression that is evaluated. So the program that it is resolved to is ready. Over a
store without failures a query is refused, if it is, for what it says.
-/

namespace Provenance

open Query Store SymbolTable Action

/-! ## Errors of queries -/

/-- An error that does not come from the store. -/
def QueryError.IsRefusal (e : QueryError) : Prop := ∀ cause, e ≠ .backend cause

namespace Action.Ends

variable {σ ε α β : Type} {E : ε → Prop} {I : σ → Prop} {J : α → σ → Prop}

theorem throw {e : ε} (he : E e) : Ends E I (throw e : Action σ ε α) J :=
  fun s _ => .inr ⟨e, s, rfl, he⟩

/-- What success tells may be used. -/
theorem of_ok {a : Action σ ε α} {K : α → σ → Prop} (ha : Ends E I a J)
    (h : ∀ s x t, I s → a.runFrom s = (.ok x, t) → J x t → K x t) : Ends E I a K := fun s hs =>
  (ha s hs).imp_left fun ⟨x, t, hx, ht⟩ => ⟨x, t, hx, h s x t hs hx ht⟩

end Action.Ends

/-! ## Ready programs, further -/

section Ready

variable {known known' : Value → Prop}

theorem Instruction.IsReady.mono {i : Instruction} (h : i.IsReady known)
    (hknown : ∀ v, known v → known' v) : i.IsReady known' :=
  ⟨h.isNative, fun v hv => hknown v (h.uses v hv), h.made⟩

namespace Program

theorem IsReady.mono {p : Program} (h : IsReady known p) (hknown : ∀ v, known v → known' v) :
    IsReady known' p := by
  induction p generalizing known known' with
  | nil => trivial
  | cons i p ih => exact ⟨h.1.mono hknown, ih h.2 fun v hv => hv.imp_left (hknown v)⟩

/-- Instructions may stand in any order if each is ready for what is known before. -/
theorem isReady_of_forall {p : Program} (h : ∀ i ∈ p, i.IsReady known) : IsReady known p := by
  induction p with
  | nil => trivial
  | cons i p ih =>
    exact ⟨h i List.mem_cons_self,
      (ih fun j hj => h j (List.mem_cons_of_mem i hj)).mono fun _ => .inl⟩

/-- What a ready program makes are handles under numbers. -/
theorem IsReady.isMade {p : Program} (h : IsReady known p) {v : Value} (hv : Makes p v) :
    v.IsMade := by
  induction p generalizing known with
  | nil => simp at hv
  | cons i p ih => exact (makes_cons.1 hv).elim (h.1.made v) (ih h.2)

end Program

end Ready

/-! ## Plans -/

namespace Plan

/-- All that makes a plan's handle is ready, given the wanted values. -/
def IsReady (wanted : Value → Prop) (p : Plan) : Prop :=
  ∀ n, Program.IsReady wanted (p.instructions n)

variable {wanted : Value → Prop}

theorem makes_instructions (p : Plan) (n : Int) : Program.Makes (p.instructions n) (p.value n) := by
  cases p <;> exact Program.makes_cons.2 (.inl rfl)

/-- A plan is ready if what fills its handle uses that and wanted values. -/
theorem isReady_graph {fill : Graph → List Instruction}
    (h : ∀ t, ∀ i ∈ fill t, i.isNative = false ∧ i.made? = none ∧
      ∀ v ∈ i.uses, v = .graph t ∨ wanted v) : (Plan.graph fill).IsReady wanted := fun n =>
  ⟨⟨rfl, nofun, fun v hv => by cases hv; exact ⟨n, rfl⟩⟩, Program.isReady_of_forall fun i hi => by
    obtain ⟨hnative, hmade, huses⟩ := h _ i hi
    exact ⟨hnative, fun v hv => (huses v hv).symm.imp_right fun h => by rw [h]; rfl,
      fun v hv => by rw [hmade] at hv; cases hv⟩⟩

theorem isReady_metadata {fill : Metadata → Instruction}
    (h : ∀ t, (fill t).isNative = false ∧ (fill t).made? = none ∧
      ∀ v ∈ (fill t).uses, v = .metadata t ∨ wanted v) : (Plan.metadata fill).IsReady wanted := fun n =>
  ⟨⟨rfl, nofun, fun v hv => by cases hv; exact ⟨n, rfl⟩⟩, Program.isReady_of_forall fun i hi => by
    obtain rfl := List.mem_singleton.1 hi
    obtain ⟨hnative, hmade, huses⟩ := h ⟨metadataPrefix ++ Text.decimal n⟩
    exact ⟨hnative, fun v hv => (huses v hv).symm.imp_right fun h => by rw [h]; rfl,
      fun v hv => by rw [hmade] at hv; cases hv⟩⟩

end Plan

namespace Resolution

open Draft Workspace

/-- The parts that all values have are parts of the values. -/
theorem mem_of_allOf {α : Type} {part : Value → Option α} {values : List Value} {xs : List α}
    (h : allOf part values = some xs) : ∀ x ∈ xs, ∃ v ∈ values, part v = some x := by
  induction values generalizing xs with
  | nil => cases h; simp
  | cons v values ih =>
    simp only [allOf, List.mapM_cons, Option.bind_eq_bind, Option.bind_eq_some_iff,
      Option.pure_def, Option.some.injEq] at h
    obtain ⟨x, hx, rest, hrest, rfl⟩ := h
    intro y hy
    obtain rfl | hy := List.mem_cons.1 hy
    · exact ⟨v, List.mem_cons_self, hx⟩
    · obtain ⟨w, hw, hwy⟩ := ih hrest y hy
      exact ⟨w, List.mem_cons_of_mem v hw, hwy⟩

variable {wanted : Value → Prop}

theorem planInfix_isReady {operator : String} {lhs rhs : Value} {p : Plan}
    (h : planInfix operator lhs rhs = some p) (hlhs : wanted lhs) (hrhs : wanted rhs) :
    p.IsReady wanted := by
  unfold planInfix at h
  split at h <;> cases h
  case h_2 =>
    exact Plan.isReady_metadata fun t => by
      simp [Instruction.isNative, Instruction.made?, Instruction.uses, hlhs, hrhs]
  all_goals
    exact Plan.isReady_graph fun t => by
      simp [Instruction.isNative, Instruction.made?, Instruction.uses, hlhs, hrhs]

theorem planCall_isReady {o : Operation} {subject : Option Value} {operands : List Value} {p : Plan}
    (h : planCall o subject operands = some p) (hsubject : ∀ v ∈ subject, wanted v)
    (hoperands : ∀ v ∈ operands, wanted v) : p.IsReady wanted := by
  have hone : ∀ {fill : Graph → Instruction}, (∀ t, (fill t).isNative = false ∧
      (fill t).made? = none ∧ ∀ v ∈ (fill t).uses, v = .graph t ∨ wanted v) →
      (Plan.graph fun t => [fill t]).IsReady wanted := fun h =>
    Plan.isReady_graph fun t i hi => by rw [List.mem_singleton.1 hi]; exact h t
  have hids : ∀ {ids}, allOf Value.integer? operands = some ids → ∀ n ∈ ids, wanted (.integer n) :=
    fun hids n hn => by
      obtain ⟨v, hv, hvn⟩ := mem_of_allOf hids n hn
      cases v <;> cases hvn
      exact hoperands _ hv
  unfold planCall at h
  split at h <;> simp only [Option.mem_def, Option.some.injEq, forall_eq', List.mem_cons,
    forall_eq_or_imp, List.not_mem_nil, false_implies, implies_true, and_true] at hsubject hoperands
  · obtain ⟨ids, hsome, rfl⟩ := Option.map_eq_some_iff.1 h
    refine hone fun t => ?_
    simpa [Instruction.isNative, Instruction.made?, Instruction.uses] using hids hsome
  · obtain ⟨ids, hsome, rfl⟩ := Option.map_eq_some_iff.1 h
    refine hone fun t => ?_
    simpa [Instruction.isNative, Instruction.made?, Instruction.uses] using hids hsome
  · obtain ⟨direction, -, h⟩ := Option.bind_eq_some_iff.1 h
    rw [planCounted_some h]
    exact hone fun t => by
      simp [Instruction.isNative, Instruction.made?, Instruction.uses, hsubject, hoperands]
  · rw [planCounted_some h]
    exact hone fun t => by
      simp [Instruction.isNative, Instruction.made?, Instruction.uses, hsubject, hoperands]
  · rw [planCounted_some h]
    exact hone fun t => by
      simp [Instruction.isNative, Instruction.made?, Instruction.uses, hsubject, hoperands]
  · cases h
    exact hone fun t => by
      simp [Instruction.isNative, Instruction.made?, Instruction.uses, hsubject, hoperands]
  · cases h
    exact hone fun t => by
      simp [Instruction.isNative, Instruction.made?, Instruction.uses, hsubject]
  · obtain ⟨fields, -, rfl⟩ := Option.map_eq_some_iff.1 h
    exact hone fun t => by
      simp [Instruction.isNative, Instruction.made?, Instruction.uses, hsubject]
  · rw [planCounted_some h]
    exact hone fun t => by
      simp [Instruction.isNative, Instruction.made?, Instruction.uses, hsubject, hoperands]
  · cases h
    exact hone fun t => by
      simp [Instruction.isNative, Instruction.made?, Instruction.uses, hsubject]
  · cases h
    exact Plan.isReady_metadata fun t => by
      simp [Instruction.isNative, Instruction.made?, Instruction.uses, hsubject]
  · cases h

end Resolution

/-! ## Drafts -/

variable {σ : Type} {b : Backend σ} {view : σ → Database} {known wanted : Value → Prop}

namespace Draft

variable {d d' : Draft σ}

/-- A value that was known before the program or is made in it. -/
def Has (known : Value → Prop) (d : Draft σ) (v : Value) : Prop := known v ∨ Program.Makes d.program v

/-- The program is ready so far, and each variable has a known value or one that is made in it. The
relation of the bindings is there to take a number. -/
structure Prepared (view : σ → Database) (known : Value → Prop) (d : Draft σ) : Prop where
  keeps : ∃ entries, Keeps (view d.workspace.store) entries
  ready : Program.IsReady known d.program
  bound : ∀ (v : Variable) name, d.workspace.symbols.lookup? v.name = some name →
    d.Has known (Resolution.named v name)

/-- A draft that is prepared, and has the wanted values. -/
def Offers (view : σ → Database) (known wanted : Value → Prop) (d : Draft σ) : Prop :=
  Prepared view known d ∧ ∀ v, wanted v → d.Has known v

theorem Offers.mono {wanted' : Value → Prop} (h : d.Offers view known wanted)
    (hwanted : ∀ v, wanted' v → wanted v) : d.Offers view known wanted' :=
  ⟨h.1, fun v hv => h.2 v (hwanted v hv)⟩

theorem Prepared.offers (h : d.Prepared view known) : d.Offers view known fun _ => False :=
  ⟨h, fun _ => False.elim⟩

/-- More instructions may be added that are ready for the wanted values. -/
theorem Offers.append (h : d.Offers view known wanted) {more : Program}
    (hmore : Program.IsReady wanted more) {w : Workspace σ} (hw : ∃ entries, Keeps (view w.store) entries)
    (hlookup : ∀ var, w.symbols.lookup? var = d.workspace.symbols.lookup? var) :
    Offers view known (fun v => wanted v ∨ Program.Makes more v) ⟨w, d.program ++ more⟩ := by
  have hhas : ∀ {v}, d.Has known v → Has known ⟨w, d.program ++ more⟩ v := fun hv =>
    hv.imp_right fun hv => Program.makes_append.2 (.inl hv)
  refine ⟨⟨hw, Program.isReady_append.2 ⟨h.1.ready, hmore.mono h.2⟩, fun v name hname => ?_⟩, ?_⟩
  · exact hhas (h.1.bound v name (hlookup v.name ▸ hname))
  · rintro v (hv | hv)
    · exact hhas (h.2 v hv)
    · exact .inr (Program.makes_append.2 (.inr hv))

end Draft

namespace Resolution

open Draft Workspace

section Reliable

variable (hb : b.IsDatabase view False)
include hb

/-- A ready plan is carried out. -/
theorem run_ends {p : Plan} (hp : p.IsReady wanted) :
    Ends QueryError.IsRefusal (Offers view known wanted) (p.run b) fun x =>
      Offers view known fun v => wanted v ∨ v = x := by
  intro d hd
  obtain ⟨entries, hkeeps⟩ := hd.1.keeps
  obtain ⟨hfails, -⟩ | ⟨s, hrun, hkeeps⟩ := freshNumber_spec hb hkeeps
  · exact hfails.elim
  · rw [p.runFrom_run, hrun]
    generalize wordAfter d.workspace.symbols.counter = n
    refine .inl ⟨_, _, rfl, Offers.mono (hd.append (w := ⟨{ d.workspace.symbols with counter := n }, s⟩)
      (hp n) ⟨_, hkeeps⟩ fun _ => rfl) ?_⟩
    rintro v (hv | rfl)
    · exact .inl hv
    · exact .inr (p.makes_instructions _)

omit hb in
theorem fail_ends {α : Type} {I : Draft σ → Prop} {J : α → Draft σ → Prop} (e : ResolutionError) :
    Ends QueryError.IsRefusal I (fail e : Drafting σ α) J := .throw nofun

omit hb in
/-- What comes after a check may use what it has found. -/
theorem require_ends_of_ok {α β : Type} {I : Draft σ → Prop} {J : β → Draft σ → Prop} {c : Checked α}
    {f : α → Drafting σ β} (hf : ∀ x, c = .ok x → Ends QueryError.IsRefusal I (f x) J) :
    Ends QueryError.IsRefusal I (require c >>= f) J := by
  cases c with
  | ok x => exact hf x rfl
  | error e => exact .throw nofun

omit hb in
theorem require_ends {α β : Type} {I : Draft σ → Prop} {J : β → Draft σ → Prop} {c : Checked α}
    {f : α → Drafting σ β} (hf : ∀ x, Ends QueryError.IsRefusal I (f x) J) :
    Ends QueryError.IsRefusal I (require c >>= f) J := require_ends_of_ok fun x _ => hf x

omit hb in
theorem valueOf_ends (v : Variable) (pos : Position) :
    Ends QueryError.IsRefusal (Offers view known wanted) (valueOf v pos : Drafting σ Value) fun x =>
      Offers view known fun w => wanted w ∨ w = x := by
  intro d hd
  simp only [valueOf, runFrom_bind, runFrom_get]
  cases hname : d.workspace.symbols.lookup? v.name with
  | none => exact fail_ends _ d hd
  | some name =>
    refine .inl ⟨_, d, rfl, hd.1, ?_⟩
    rintro w (hw | rfl)
    · exact hd.2 w hw
    · exact hd.1.bound v name hname

theorem combine_ends (operator : String) {lhs rhs : Value} (pos : Position) (hlhs : wanted lhs)
    (hrhs : wanted rhs) :
    Ends QueryError.IsRefusal (Offers view known wanted) (combine b operator lhs rhs pos) fun x =>
      Offers view known fun v => wanted v ∨ v = x := by
  rw [combine_eq]
  cases hplan : planInfix operator lhs rhs with
  | none => exact fail_ends _
  | some p => exact run_ends hb (planInfix_isReady hplan hlhs hrhs)

theorem apply_ends (o : Operation) {subject : Option Value} {operands : List Value} (pos : Position)
    (hsubject : ∀ v ∈ subject, wanted v) (hoperands : ∀ v ∈ operands, wanted v) :
    Ends QueryError.IsRefusal (Offers view known wanted) (apply b o subject operands pos) fun x =>
      Offers view known fun v => wanted v ∨ v = x := by
  have hgraph : ∀ fill, planCall o subject operands = some (.graph fill) →
      Ends QueryError.IsRefusal (Offers view known wanted) (newGraph b fill) fun x =>
        Offers view known fun v => wanted v ∨ v = x := fun fill h =>
    run_ends hb (p := .graph fill) (planCall_isReady h hsubject hoperands)
  have hcount : ∀ {quantity call : String} {n : Int} {pos : Position} {f : Unit → Drafting σ Value},
      (¬ n < 0 → Ends QueryError.IsRefusal (Offers view known wanted) (f ()) fun x =>
        Offers view known fun v => wanted v ∨ v = x) →
      Ends QueryError.IsRefusal (Offers view known wanted) (requireCount quantity call n pos >>= f)
        fun x => Offers view known fun v => wanted v ∨ v = x := by
    intro quantity call n pos f hf
    unfold requireCount
    split
    · exact .bind (J := fun _ _ => False) (fail_ends _) fun _ _ => nofun
    · exact .bind (.pure fun _ hd => hd) fun _ => hf ‹_›
  unfold apply
  split
  · split
    · exact hgraph _ (by rw [planCall, ‹allOf _ _ = _›]; rfl)
    · exact fail_ends _
  · split
    · exact hgraph _ (by rw [planCall, ‹allOf _ _ = _›]; rfl)
    · exact fail_ends _
  · refine hcount fun hn => ?_
    unfold requireDirection
    split
    · next direction hdirection =>
      refine .bind (J := fun x d => Offers view known wanted d ∧ x = direction)
        (.pure fun _ hd => ⟨hd, rfl⟩) fun x => .of_fact fun hx => hgraph _ ?_
      rw [planCall, hdirection, hx]
      simp [planCounted, hn]
    · exact .bind (J := fun _ _ => False) (fail_ends _) fun _ _ => nofun
  · exact hcount fun hn => hgraph _ (by simp [planCall, planCounted, hn])
  · exact hcount fun hn => hgraph _ (by simp [planCall, planCounted, hn])
  · exact hgraph _ rfl
  · exact hgraph _ rfl
  · split
    · exact hgraph _ (by rw [planCall, ‹allOf _ _ = _›]; rfl)
    · exact fail_ends _
  · exact hcount fun hn => hgraph _ (by simp [planCall, planCounted, hn])
  · exact hgraph _ rfl
  · next coverage g name value =>
    exact run_ends hb (p := .metadata fun t => .setMetadata t coverage g name value)
      (planCall_isReady (o := .setMetadata coverage) rfl hsubject hoperands)
  · exact fail_ends _

end Reliable

/-! ### Expressions -/

/-- Literals are known. -/
structure HasLiterals (known : Value → Prop) : Prop where
  words : ∀ n, Text.isWord n = true → known (.integer n)
  texts : ∀ s, known (.text s)

mutual

/-- Evaluating an expression that was read gives a value that is known or made in the program. -/
theorem evaluate_ends (hb : b.IsDatabase view False) (hliterals : HasLiterals known) :
    ∀ (e : Expr) {wanted : Value → Prop}, e.HasWords →
      Ends QueryError.IsRefusal (Offers view known wanted) (evaluate b e) fun x =>
        Offers view known fun v => wanted v ∨ v = x
  | .integer pos n, wanted, he => by
    rw [evaluate]
    exact .pure fun d hd => ⟨hd.1, fun v hv => hv.elim (hd.2 v) fun hv => hv ▸ .inl (hliterals.words n he)⟩
  | .text pos s, wanted, he => by
    rw [evaluate]
    exact .pure fun d hd => ⟨hd.1, fun v hv => hv.elim (hd.2 v) fun hv => hv ▸ .inl (hliterals.texts s)⟩
  | .name pos word, wanted, he => by rw [evaluate]; exact fail_ends _
  | .var pos v, wanted, he => by rw [evaluate]; exact valueOf_ends v pos
  | .call pos function operands, wanted, he => by
    rw [evaluate]
    exact require_ends fun o => require_ends fun _ => require_ends fun _ =>
      (evaluateAll_ends hb hliterals operands he).bind fun values =>
        (apply_ends hb o pos (by simp) fun v => .inr).mono (fun _ hd => hd) fun x d hd =>
          hd.mono fun v hv => hv.imp_left .inl
  | .apply pos subject operator operands, wanted, he => by
    rw [evaluate]
    split
    · refine require_ends fun _ => (evaluate_ends hb hliterals subject he.1).bind fun lhs =>
        (evaluateFirst_ends hb hliterals operands he.2).bind fun first => ?_
      cases first with
      | none => exact fail_ends _
      | some rhs =>
        exact (combine_ends hb operator pos (.inl (.inr rfl)) (.inr rfl)).mono (fun _ hd => hd)
          fun x d hd => hd.mono fun v hv => hv.imp_left fun hv => .inl (.inl hv)
    · refine require_ends fun o => require_ends fun _ => require_ends fun _ => require_ends fun _ =>
        (evaluate_ends hb hliterals subject he.1).bind fun value =>
          (evaluateAll_ends hb hliterals operands he.2).bind fun values => ?_
      refine (apply_ends hb o pos ?_ fun v => .inr).mono (fun _ hd => hd) fun x d hd =>
        hd.mono fun v hv => hv.imp_left fun hv => .inl (.inl hv)
      rintro v hv
      cases hv
      exact .inl (.inr rfl)

theorem evaluateAll_ends (hb : b.IsDatabase view False) (hliterals : HasLiterals known) :
    ∀ (es : List Expr) {wanted : Value → Prop}, Expr.AllHaveWords es →
      Ends QueryError.IsRefusal (Offers view known wanted) (evaluateAll b es) fun xs =>
        Offers view known fun v => wanted v ∨ v ∈ xs
  | [], wanted, hes => by
    rw [evaluateAll]
    exact .pure fun d hd => hd.mono fun v hv => hv.resolve_right (by simp)
  | e :: es, wanted, hes => by
    rw [evaluateAll]
    exact (evaluate_ends hb hliterals e hes.1).bind fun x =>
      (evaluateAll_ends hb hliterals es hes.2).bind fun xs => .pure fun d hd =>
        hd.mono fun v hv => hv.elim (fun hv => .inl (.inl hv)) fun hv =>
          (List.mem_cons.1 hv).elim (fun hv => .inl (.inr hv)) .inr

theorem evaluateFirst_ends (hb : b.IsDatabase view False) (hliterals : HasLiterals known) :
    ∀ (es : List Expr) {wanted : Value → Prop}, Expr.AllHaveWords es →
      Ends QueryError.IsRefusal (Offers view known wanted) (evaluateFirst b es) fun first =>
        Offers view known fun v => wanted v ∨ first = some v
  | [], wanted, hes => by
    rw [evaluateFirst]
    exact .pure fun d hd => hd.mono fun v hv => hv.resolve_right nofun
  | e :: es, wanted, hes => by
    rw [evaluateFirst]
    exact (evaluate_ends hb hliterals e hes.1).bind fun x => .pure fun d hd =>
      hd.mono fun v hv => hv.imp_right fun h => (Option.some.inj h).symm

end

/-! ### Statements -/

section Statements

variable (hb : b.IsDatabase view False) (hliterals : HasLiterals known)

theorem named_of_kind {v : Variable} {x : Value} (h : x.kind = v.kind) : named v x.shown = x := by
  have hv : v.kind = .graph ∨ v.kind = .metadata := kind_isHandle v h |>.imp h.symm.trans h.symm.trans
  cases x with
  | graph g => simp [named, ← h, Value.kind, Value.shown]
  | metadata m => simp [named, ← h, Value.kind, Value.shown]
  | integer n => obtain hv | hv := hv <;> simp [Value.kind, hv] at h
  | text s => obtain hv | hv := hv <;> simp [Value.kind, hv] at h

theorem assigned_kind {pos : Position} {target : Variable} {op : AssignOp} {value : Expr} {x : Value}
    {d d' : Draft σ} (h : (assigned b pos target op value).runFrom d = (.ok x, d')) :
    x.kind = target.kind := by
  obtain ⟨-, hkind, hrun⟩ | ⟨operator, name, operand, d₁, p, -, -, -, hplan, hrun⟩ := assigned_ok h
  · exact Except.ok.inj ((evaluate_kind value hrun).symm.trans hkind)
  · obtain ⟨n, w, -, rfl, -⟩ := p.run_ok hrun
    rw [planInfix_kind hplan, named_kind]

include hb hliterals

theorem assigned_ends (pos : Position) (target : Variable) (op : AssignOp) {value : Expr}
    (hvalue : value.HasWords) :
    Ends QueryError.IsRefusal (Offers view known wanted) (assigned b pos target op value) fun x =>
      Offers view known fun v => wanted v ∨ v = x := by
  unfold assigned
  refine require_ends fun kind => ?_
  split
  · split
    · exact evaluate_ends hb hliterals value hvalue
    · exact fail_ends _
  · exact (valueOf_ends target pos).bind fun current => require_ends fun _ =>
      (evaluate_ends hb hliterals value hvalue).bind fun operand =>
        (combine_ends hb _ pos (.inl (.inr rfl)) (.inr rfl)).mono (fun _ hd => hd) fun x d hd =>
          hd.mono fun v hv => hv.imp_left fun hv => .inl (.inl hv)

omit hliterals hb in
/-- A variable may be bound to a value of its kind. -/
theorem bindTo_ends {target : Variable} (htarget : target.name ≠ baseVariable) {x : Value}
    (hkind : x.kind = target.kind) :
    Ends QueryError.IsRefusal (Offers view known (· = x)) (bindTo target x : Drafting σ Unit) fun _ =>
      Prepared view known := by
  intro d hd
  refine .inl ⟨(), { d with workspace.symbols := { d.workspace.symbols with
    bindings := d.workspace.symbols.bindings.insert target.name x.shown
    pending := d.workspace.symbols.pending.insert target.name x.shown } }, ?_, hd.1.keeps, hd.1.ready, ?_⟩
  · simp only [bindTo, runFrom_bind, runFrom_get, SymbolTable.bind?, if_neg htarget, runFrom_set]
  · intro v name hname
    by_cases hv : v.name = target.name
    · obtain rfl : v = target := by cases v; cases target; exact congrArg _ hv
      simp only [SymbolTable.lookup?, if_neg htarget, OrderedMap.find?_insert, if_true,
        Option.some.injEq] at hname
      rw [← hname, named_of_kind hkind]
      exact hd.2 x rfl
    · refine hd.1.bound v name ?_
      simpa only [SymbolTable.lookup?, OrderedMap.find?_insert, if_neg hv] using hname

theorem assign_ends (pos : Position) (target : Variable) (op : AssignOp) {value : Expr}
    (hvalue : value.HasWords) :
    Ends QueryError.IsRefusal (Prepared view known) (assign b pos target op value) fun _ =>
      Prepared view known := by
  unfold assign
  split
  · exact fail_ends _
  · next htarget =>
    have hassigned : Ends QueryError.IsRefusal (Prepared view known) (assigned b pos target op value)
        fun x d => Offers view known (· = x) d ∧ x.kind = target.kind :=
      ((assigned_ends hb hliterals pos target op hvalue).mono (fun _ hd => hd.offers)
        fun x d hd => hd.mono fun v => .inr).of_ok
          fun _ x t _ hrun hd => ⟨hd, assigned_kind hrun⟩
    exact hassigned.bind fun x => .of_fact fun hkind => bindTo_ends htarget hkind

omit hb hliterals in
theorem allHaveWords_splitKeywords {c : Command} {arguments others : List Expr} {words : List String}
    (h : splitKeywords c arguments = .ok (words, others)) (ha : Expr.AllHaveWords arguments) :
    Expr.AllHaveWords others := by
  induction arguments generalizing words with
  | nil => cases h; exact ha
  | cons e es ih =>
    unfold splitKeywords at h
    split at h
    · next heq =>
      cases heq
      split at h
      · cases hes : splitKeywords c es with
        | error e => rw [hes] at h; cases h
        | ok parts =>
          rw [hes] at h
          cases h
          exact ih hes ha.2
      · cases h
    · cases h; exact ha

omit hb hliterals in
/-- A command adds an instruction that reads a value, or forgets all bindings. -/
theorem perform_ends {c : Command} (hc : c ≠ .native) (words : List String) (values : List Value)
    (pos : Position) :
    Ends QueryError.IsRefusal (Offers view known fun v => v ∈ values)
      (perform c words values pos : Drafting σ Unit) fun _ => Prepared view known := by
  have hpush : ∀ i : Instruction, i.isNative = false → i.made? = none → (∀ v ∈ i.uses, v ∈ values) →
      Ends QueryError.IsRefusal (Offers view known fun v => v ∈ values) (push i : Drafting σ Unit)
        fun _ => Prepared view known := fun i hnative hmade huses d hd =>
    have hready : Program.IsReady (· ∈ values) [i] := ⟨⟨hnative, huses, by simp [hmade]⟩, trivial⟩
    .inl ⟨(), _, rfl, (hd.append (w := d.workspace) hready hd.1.keeps fun _ => rfl).1⟩
  unfold perform
  split
  · exact hpush _ rfl rfl (by simp [Instruction.uses])
  · exact hpush _ rfl rfl (by simp [Instruction.uses])
  · exact hpush _ rfl rfl (by simp [Instruction.uses])
  · exact absurd rfl hc
  · refine fun d hd => .inl ⟨(), _, rfl, hd.1.keeps, hd.1.ready, fun v name hname => ?_⟩
    -- only the base graph is still bound
    have hbase : v.name = baseVariable := by
      by_contra hv
      cases (if_neg hv).symm.trans hname
    refine hd.1.bound v name ?_
    simpa only [SymbolTable.lookup?, if_pos hbase] using hname
  · exact fail_ends _

/-- A statement that was read leaves a prepared draft, or is refused. -/
theorem statement_ends {s : Query.Statement} (hreadable : s.IsReadable) (hnative : s.isNative = false) :
    Ends QueryError.IsRefusal (Prepared view known) (statement b s) fun _ => Prepared view known := by
  cases s with
  | assignment pos target op value => exact assign_ends hb hliterals pos target op hreadable.2
  | command pos name arguments =>
    simp only [statement, command]
    split
    · exact fail_ends _
    · next c hfind =>
      have hc : c ≠ .native := by
        rintro rfl
        simp [Query.Statement.isNative, name_of_find? hfind] at hnative
      refine require_ends_of_ok fun parts hparts => ?_
      have hothers := allHaveWords_splitKeywords hparts hreadable
      refine require_ends fun _ => require_ends fun _ => require_ends fun _ => ?_
      exact ((evaluateAll_ends hb hliterals parts.2 hothers).mono (fun _ hd => hd.offers)
        fun xs d hd => hd.mono fun v => .inr).bind fun values => perform_ends hc parts.1 values pos

/-- Statements that were read leave a prepared draft, or are refused. -/
theorem statements_ends {ss : List Query.Statement} (hreadable : ∀ s ∈ ss, s.IsReadable)
    (hnative : ∀ s ∈ ss, s.isNative = false) :
    Ends QueryError.IsRefusal (Prepared view known) (ss.forM (statement b)) fun _ =>
      Prepared view known :=
  .forM fun s hs => statement_ends hb hliterals (hreadable s hs) (hnative s hs)

end Statements

end Resolution

end Provenance
