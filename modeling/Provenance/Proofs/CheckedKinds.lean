import Provenance.Proofs.ReadyQueries

/-!
# Checks that suffice

Before an expression is evaluated, the kinds of its parts are read off their syntax and compared with
what is wanted. Every value that comes out has the kind that was read off, so that operands that
passed the checks always fit: resolution has no other errors than those of the checks.
-/

namespace Provenance

open Query Store SymbolTable Action

/-! ## Errors of the checks -/

/-- An error that tells more than that operands do not fit although they passed all checks. -/
def ResolutionError.IsEarly (e : ResolutionError) : Prop := ∀ name pos, e ≠ .unchecked name pos

def QueryError.IsEarly (e : QueryError) : Prop := ∀ e', e = .resolution e' → e'.IsEarly

namespace Resolution

open Draft

variable {α β : Type}

/-- A check that fails with an error of its own, if it fails. -/
def IsEarly (c : Checked α) : Prop := ∀ e, c = .error e → e.IsEarly

namespace IsEarly

theorem ok (x : α) : IsEarly (.ok x) := nofun

theorem error {e : ResolutionError} (h : e.IsEarly) : IsEarly (.error e : Checked α) := by
  rintro _ ⟨⟩
  exact h

theorem bind {c : Checked α} {f : α → Checked β} (hc : IsEarly c) (hf : ∀ x, IsEarly (f x)) :
    IsEarly (c >>= f) := by
  cases c with
  | ok x => exact hf x
  | error e => exact .error (hc e rfl)

end IsEarly

theorem findOperation_isEarly (name : String) (onGraph : Bool) (pos : Position) :
    IsEarly (findOperation name onGraph pos) := by
  unfold findOperation
  split
  · exact .ok _
  · exact .error nofun

theorem checkInfix_isEarly (operator : String) (lhs rhs : Kind) (pos : Position) :
    IsEarly (checkInfix operator lhs rhs pos) := by
  unfold checkInfix
  split
  · exact .error nofun
  · split
    · exact .error nofun
    · exact .ok _

mutual

theorem kindOf_isEarly : ∀ e : Expr, IsEarly (kindOf e)
  | .integer pos n => by rw [kindOf]; exact .ok _
  | .text pos s => by rw [kindOf]; exact .ok _
  | .name pos word => by rw [kindOf]; exact .error nofun
  | .var pos v => by rw [kindOf]; exact .ok _
  | .call pos function operands => by
    rw [kindOf]
    exact (findOperation_isEarly _ _ _).bind fun _ => .ok _
  | .apply pos subject operator operands => by
    rw [kindOf]
    split
    · refine (kindOf_isEarly subject).bind fun lhs => (kindOfFirst_isEarly operands).bind ?_
      rintro (_ | rhs)
      · exact .ok _
      · exact (checkInfix_isEarly _ _ _ _).bind fun _ => .ok _
    · exact (findOperation_isEarly _ _ _).bind fun _ => .ok _

theorem kindOfFirst_isEarly : ∀ es : List Expr, IsEarly (kindOfFirst es)
  | [] => by rw [kindOfFirst]; exact .ok _
  | e :: es => by
    rw [kindOfFirst]
    exact (kindOf_isEarly e).bind fun _ => .ok _

end

theorem checkArity_isEarly (name : String) (expected : Arity) (found : Nat) (pos : Position) :
    IsEarly (checkArity name expected found pos) := by
  unfold checkArity
  split
  · exact .ok _
  · exact .error nofun

theorem checkOperands_isEarly (call : String) (index : Nat) (expected : List Kind)
    (es : List Expr) : IsEarly (checkOperands call index expected es) := by
  induction es generalizing index expected with
  | nil => cases expected <;> exact .ok _
  | cons e es ih =>
    cases expected with
    | nil => exact .ok _
    | cons k later =>
      rw [checkOperands]
      refine (kindOf_isEarly e).bind fun found => ?_
      split
      · exact ih _ _
      · exact .error nofun

theorem checkReceiver_isEarly (method : String) (subject : Expr) :
    IsEarly (checkReceiver method subject) := by
  refine (kindOf_isEarly subject).bind fun found => ?_
  split
  · exact .ok _
  · exact .error nofun

theorem splitKeywords_isEarly (c : Command) (es : List Expr) : IsEarly (splitKeywords c es) := by
  induction es with
  | nil => exact .ok _
  | cons e es ih =>
    cases e with
    | name pos word =>
      rw [splitKeywords]
      split
      · exact ih.bind fun _ => .ok _
      · exact .error nofun
    | _ => exact .ok _

theorem checkKeywords_isEarly (c : Command) (words : List String) (arguments : List Expr)
    (pos : Position) : IsEarly (checkKeywords c words arguments pos) := by
  unfold checkKeywords
  split
  · exact .ok _
  · split
    · exact .ok _
    · exact .error nofun

/-! ## Operands that pass -/

/-- The kinds of the values are those that the syntax of the expressions shows. -/
abbrev ShowKinds (es : List Expr) (values : List Value) : Prop :=
  List.Forall₂ (fun e v => kindOf e = .ok v.kind) es values

/-- The first operand has the first expected kind, and the others pass as well. -/
theorem checkOperands_cons {call : String} {index : Nat} {k : Kind} {later : List Kind} {e : Expr}
    {es : List Expr} {v : Value} (he : kindOf e = .ok v.kind)
    (h : checkOperands call index (k :: later) (e :: es) = .ok ()) :
    v.kind = k ∧ checkOperands call (index + 1) (if later.isEmpty then [k] else later) es = .ok () := by
  rw [checkOperands, he] at h
  by_cases hk : v.kind = k
  · exact ⟨hk, by simpa [bind, Except.bind, hk] using h⟩
  · simp [bind, Except.bind, hk] at h

/-- As many operands as expected that pass have the expected kinds. -/
theorem kinds_of_checkOperands {call : String} {index : Nat} {expected : List Kind}
    {es : List Expr} {values : List Value} (hshow : ShowKinds es values)
    (hlength : es.length = expected.length) (h : checkOperands call index expected es = .ok ()) :
    values.map Value.kind = expected := by
  induction hshow generalizing index expected with
  | nil => rw [List.eq_nil_of_length_eq_zero hlength.symm]; rfl
  | @cons e v es values he _ ih =>
    cases expected with
    | nil => cases hlength
    | cons k later =>
      obtain ⟨hk, hrest⟩ := checkOperands_cons he h
      have hlater : es.length = later.length := Nat.succ.inj hlength
      rw [List.map_cons, hk]
      congr 1
      cases later with
      | nil =>
        obtain rfl := List.eq_nil_of_length_eq_zero hlater
        cases ‹List.Forall₂ _ [] values›
        rfl
      | cons k' later => exact ih hlater hrest

/-- Operands that are checked against one kind all have it. -/
theorem kind_of_checkOperands {call : String} {index : Nat} {k : Kind} {es : List Expr}
    {values : List Value} (hshow : ShowKinds es values)
    (h : checkOperands call index [k] es = .ok ()) : ∀ v ∈ values, v.kind = k := by
  induction hshow generalizing index with
  | nil => nofun
  | cons he _ ih =>
    obtain ⟨hk, hrest⟩ := checkOperands_cons he h
    exact List.forall_mem_cons.2 ⟨hk, ih hrest⟩

/-- The values have the kinds of a signature: just these, or any number of the only one. -/
def Takes (s : Signature) (values : List Value) : Prop :=
  if s.repeating then ∃ k, s.operands = [k] ∧ ∀ v ∈ values, v.kind = k
  else values.map Value.kind = s.operands

/-- A repeated operand is the only one. -/
theorem operands_of_repeating {o : Operation} (h : o.signature.repeating = true) :
    ∃ k, o.signature.operands = [k] := by
  cases o <;> first | exact ⟨_, rfl⟩ | cases h

theorem length_of_checkArity {name : String} {expected found : Nat} {pos : Position}
    (h : checkArity name (.exactly expected) found pos = .ok ()) : found = expected := by
  by_contra hne
  simp [checkArity, Arity.admits, hne] at h

theorem takes_of_checks {o : Operation} {name : String} {pos : Position} {es : List Expr}
    {values : List Value} (hshow : ShowKinds es values)
    (harity : checkArity name o.signature.arity es.length pos = .ok ())
    (h : checkOperands name 0 o.signature.operands es = .ok ()) : Takes o.signature values := by
  unfold Takes
  split
  · next hrepeating =>
    obtain ⟨k, hk⟩ := operands_of_repeating hrepeating
    rw [hk] at h
    exact ⟨k, hk, kind_of_checkOperands hshow h⟩
  · next hrepeating =>
    rw [Signature.arity, if_neg hrepeating] at harity
    exact kinds_of_checkOperands hshow (length_of_checkArity harity) h

section Shapes

variable {v : Value}

theorem eq_graph (h : v.kind = .graph) : ∃ g, v = .graph g := by cases v <;> simp_all [Value.kind]

theorem eq_metadata (h : v.kind = .metadata) : ∃ m, v = .metadata m := by
  cases v <;> simp_all [Value.kind]

theorem eq_integer (h : v.kind = .integer) : ∃ n, v = .integer n := by
  cases v <;> simp_all [Value.kind]

theorem eq_text (h : v.kind = .text) : ∃ s, v = .text s := by cases v <;> simp_all [Value.kind]

variable {values : List Value}

theorem eq_singleton {k : Kind} (h : values.map Value.kind = [k]) :
    ∃ v, values = [v] ∧ v.kind = k := by
  obtain ⟨v, rest, rfl, hv, hrest⟩ := List.map_eq_cons_iff.1 h
  exact ⟨v, by rw [List.map_eq_nil_iff.1 hrest], hv⟩

/-- The operands of a search for paths. -/
theorem eq_route (h : values.map Value.kind = [.graph, .graph, .integer]) :
    ∃ x y n, values = [.graph x, .graph y, .integer n] := by
  obtain ⟨_, _, rfl, hx, hrest⟩ := List.map_eq_cons_iff.1 h
  obtain ⟨_, _, rfl, hy, hlast⟩ := List.map_eq_cons_iff.1 hrest
  obtain ⟨_, rfl, hn⟩ := eq_singleton hlast
  obtain ⟨x, rfl⟩ := eq_graph hx
  obtain ⟨y, rfl⟩ := eq_graph hy
  obtain ⟨n, rfl⟩ := eq_integer hn
  exact ⟨x, y, n, rfl⟩

theorem allOf_isSome {part : Value → Option α}
    (h : ∀ v ∈ values, ∃ x, part v = some x) : ∃ xs, allOf part values = some xs := by
  induction values with
  | nil => exact ⟨[], rfl⟩
  | cons v values ih =>
    obtain ⟨x, hx⟩ := h v List.mem_cons_self
    obtain ⟨xs, hxs⟩ := ih fun w hw => h w (List.mem_cons_of_mem v hw)
    unfold allOf at hxs ⊢
    exact ⟨x :: xs, by simp [List.mapM_cons, hx, hxs]⟩

end Shapes

/-! ## Actions without late errors -/

variable {σ : Type} {b : Backend σ}

/-- The action ends with an error of its own, if with any; what holds of its value does not depend on
the draft. -/
abbrev EndsEarly (a : Drafting σ α) (P : α → Prop) : Prop :=
  Ends QueryError.IsEarly (fun _ => True) a fun x _ => P x

theorem fail_endsEarly {e : ResolutionError} (h : e.IsEarly) {P : α → Prop} :
    EndsEarly (fail e : Drafting σ α) P :=
  .throw (by rintro _ ⟨⟩; exact h)

/-- Actions on the store fail with errors of the store. -/
theorem onWorkspace_endsEarly (a : Action (Workspace σ) BackendError α) :
    EndsEarly (onWorkspace a) fun _ => True := by
  intro d _
  rw [Plan.runFrom_onWorkspace]
  cases ha : (a.runFrom d.workspace).1 with
  | ok x => exact .inl ⟨x, _, rfl, trivial⟩
  | error e => exact .inr ⟨_, _, rfl, nofun⟩

theorem run_endsEarly (p : Plan) : EndsEarly (p.run b) fun _ => True := by
  intro d _
  rw [p.runFrom_run]
  split
  · exact .inl ⟨_, _, rfl, trivial⟩
  · exact .inr ⟨_, _, rfl, nofun⟩

/-- What comes after a check may use what it has found. -/
theorem require_endsEarly {c : Checked α} {f : α → Drafting σ β} {P : β → Prop} (hc : IsEarly c)
    (hf : ∀ x, c = .ok x → EndsEarly (f x) P) : EndsEarly (require c >>= f) P := by
  cases c with
  | ok x => exact hf x rfl
  | error e => exact fail_endsEarly (hc e rfl)

/-- What comes after an action may use what holds of its value. -/
theorem bind_endsEarly {a : Drafting σ α} {f : α → Drafting σ β} {P : α → Prop} {Q : β → Prop}
    (ha : EndsEarly a P) (hf : ∀ x, P x → EndsEarly (f x) Q) : EndsEarly (a >>= f) Q :=
  ha.bind fun x => (Ends.of_fact (I := fun _ => True) (hf x)).mono (fun _ h => ⟨trivial, h⟩)
    fun _ _ h => h

theorem EndsEarly.weaken {a : Drafting σ α} {P : α → Prop} (h : EndsEarly a P) :
    EndsEarly a fun _ => True := h.mono (fun _ h => h) fun _ _ _ => trivial

theorem valueOf_endsEarly (v : Variable) (pos : Position) :
    EndsEarly (valueOf v pos : Drafting σ Value) fun x => x.kind = v.kind := by
  intro d _
  simp only [valueOf, runFrom_bind, runFrom_get]
  cases d.workspace.symbols.lookup? v.name with
  | none => exact fail_endsEarly (fun _ _ h => by cases h) d trivial
  | some name => exact .inl ⟨_, d, rfl, named_kind name⟩

/-! ## Operations -/

theorem requireCount_endsEarly (quantity call : String) (n : Int) (pos : Position)
    {f : Unit → Drafting σ α} {P : α → Prop} (hf : EndsEarly (f ()) P) :
    EndsEarly (requireCount quantity call n pos >>= f) P := by
  rw [requireCount_bind]
  split
  · exact fail_endsEarly (by nofun)
  · exact hf

theorem requireDirection_endsEarly (spelling : String) (pos : Position) :
    EndsEarly (requireDirection spelling pos : Drafting σ Direction) fun _ => True := by
  unfold requireDirection
  split
  · exact .pure fun _ h => h
  · exact fail_endsEarly (by nofun)

/-- Operands that passed the check of an infix operator can be combined. -/
theorem combine_endsEarly {operator : String} {lhs rhs : Value} {pos : Position}
    (hoperator : isInfix operator = true)
    (h : checkInfix operator lhs.kind rhs.kind pos = .ok ()) :
    EndsEarly (combine b operator lhs rhs pos) fun _ => True := by
  have hplan : ∃ p, planInfix operator lhs rhs = some p := by
    unfold checkInfix at h
    split at h
    · cases h
    · next hlhs =>
      split at h
      · cases h
      · next hrhs =>
        have hsame : rhs.kind = lhs.kind := by simpa using hrhs
        simp only [isInfix, Bool.or_eq_true, beq_iff_eq] at hoperator
        obtain (rfl | rfl) | rfl := hoperator
        · have hkind : lhs.kind ≠ .graph → lhs.kind = .metadata := by simpa [infixKinds] using hlhs
          by_cases hk : lhs.kind = .graph
          · obtain ⟨x, rfl⟩ := eq_graph hk
            obtain ⟨y, rfl⟩ := eq_graph hsame
            exact ⟨_, rfl⟩
          · obtain ⟨x, rfl⟩ := eq_metadata (hkind hk)
            obtain ⟨y, rfl⟩ := eq_metadata hsame
            exact ⟨_, rfl⟩
        all_goals
          have hk : lhs.kind = .graph := by simpa [infixKinds] using hlhs
          obtain ⟨x, rfl⟩ := eq_graph hk
          obtain ⟨y, rfl⟩ := eq_graph hsame
          exact ⟨_, rfl⟩
  obtain ⟨p, hp⟩ := hplan
  rw [combine_eq, hp]
  exact run_endsEarly p

/-- The subject of a method is a graph, and a function has none. -/
def Stands (s : Signature) (subject : Option Value) : Prop :=
  subject.map Value.kind = if s.onGraph then some .graph else none

theorem Stands.eq_graph {s : Signature} {subject : Option Value} (h : Stands s subject)
    (hs : s.onGraph = true) : ∃ g, subject = some (.graph g) := by
  rw [Stands, if_pos hs] at h
  obtain ⟨v, rfl, hv⟩ := Option.map_eq_some_iff.1 h
  obtain ⟨g, rfl⟩ := Resolution.eq_graph hv
  exact ⟨g, rfl⟩

theorem Stands.eq_none {s : Signature} {subject : Option Value} (h : Stands s subject)
    (hs : s.onGraph = false) : subject = none := by
  rw [Stands, if_neg (by simp [hs])] at h
  exact Option.map_eq_none_iff.1 h

theorem newGraph_endsEarly (fill : Graph → List Instruction) :
    EndsEarly (newGraph b fill) fun _ => True := run_endsEarly (.graph fill)

theorem newMetadata_endsEarly (fill : Metadata → Instruction) :
    EndsEarly (newMetadata b fill) fun _ => True := run_endsEarly (.metadata fill)

/-- A call on what its signature wants can be made. -/
theorem apply_endsEarly {o : Operation} {subject : Option Value} {values : List Value}
    {pos : Position} (hsubject : Stands o.signature subject) (hvalues : Takes o.signature values) :
    EndsEarly (apply b o subject values pos) fun _ => True := by
  have hids : (∀ v ∈ values, v.kind = .integer) → ∃ ids, allOf Value.integer? values = some ids :=
    fun hkind => allOf_isSome fun v hv => by
      obtain ⟨n, rfl⟩ := eq_integer (hkind v hv)
      exact ⟨n, rfl⟩
  cases o with
  | vertices =>
    obtain rfl := hsubject.eq_none rfl
    obtain ⟨_, ⟨⟩, hkind⟩ := hvalues
    obtain ⟨ids, hids⟩ := hids hkind
    simp only [apply, hids]
    exact newGraph_endsEarly _
  | edges =>
    obtain rfl := hsubject.eq_none rfl
    obtain ⟨_, ⟨⟩, hkind⟩ := hvalues
    obtain ⟨ids, hids⟩ := hids hkind
    simp only [apply, hids]
    exact newGraph_endsEarly _
  | lineage =>
    obtain ⟨g, rfl⟩ := hsubject.eq_graph rfl
    obtain ⟨_, _, rfl, hstart, hrest⟩ := List.map_eq_cons_iff.1 hvalues
    obtain ⟨_, _, rfl, hdepth, hlast⟩ := List.map_eq_cons_iff.1 hrest
    obtain ⟨start, rfl⟩ := eq_graph hstart
    obtain ⟨depth, rfl⟩ := eq_integer hdepth
    obtain ⟨_, rfl, hspelling⟩ := eq_singleton hlast
    obtain ⟨spelling, rfl⟩ := eq_text hspelling
    exact requireCount_endsEarly _ _ _ _
      ((requireDirection_endsEarly _ _).bind fun _ => newGraph_endsEarly _)
  | path =>
    obtain ⟨g, rfl⟩ := hsubject.eq_graph rfl
    obtain ⟨x, y, n, rfl⟩ := eq_route hvalues
    exact requireCount_endsEarly _ _ _ _ (newGraph_endsEarly _)
  | shortestPath =>
    obtain ⟨g, rfl⟩ := hsubject.eq_graph rfl
    obtain ⟨x, y, n, rfl⟩ := eq_route hvalues
    exact requireCount_endsEarly _ _ _ _ (newGraph_endsEarly _)
  | subgraph =>
    obtain ⟨g, rfl⟩ := hsubject.eq_graph rfl
    obtain ⟨_, rfl, hskeleton⟩ := eq_singleton hvalues
    obtain ⟨skeleton, rfl⟩ := eq_graph hskeleton
    exact newGraph_endsEarly _
  | endpoints which =>
    obtain ⟨g, rfl⟩ := hsubject.eq_graph (by cases which <;> rfl)
    obtain rfl := List.map_eq_nil_iff.1 hvalues
    exact newGraph_endsEarly _
  | collapse =>
    obtain ⟨g, rfl⟩ := hsubject.eq_graph rfl
    obtain ⟨_, ⟨⟩, hkind⟩ := hvalues
    obtain ⟨fields, hfields⟩ : ∃ fields, allOf Value.text? values = some fields :=
      allOf_isSome fun v hv => by
        obtain ⟨s, rfl⟩ := eq_text (hkind v hv)
        exact ⟨s, rfl⟩
    simp only [apply, hfields]
    exact newGraph_endsEarly _
  | limit =>
    obtain ⟨g, rfl⟩ := hsubject.eq_graph rfl
    obtain ⟨_, rfl, hbound⟩ := eq_singleton hvalues
    obtain ⟨bound, rfl⟩ := eq_integer hbound
    exact requireCount_endsEarly _ _ _ _ (newGraph_endsEarly _)
  | distinct =>
    obtain ⟨g, rfl⟩ := hsubject.eq_graph rfl
    obtain rfl := List.map_eq_nil_iff.1 hvalues
    exact newGraph_endsEarly _
  | setMetadata coverage =>
    obtain ⟨g, rfl⟩ := hsubject.eq_graph rfl
    obtain ⟨_, _, rfl, hname, hlast⟩ := List.map_eq_cons_iff.1 hvalues
    obtain ⟨name, rfl⟩ := eq_text hname
    obtain ⟨_, rfl, hvalue⟩ := eq_singleton hlast
    obtain ⟨value, rfl⟩ := eq_text hvalue
    exact newMetadata_endsEarly _

/-! ## Evaluations -/

theorem onGraph_of_findOperation {name : String} {onGraph : Bool} {pos : Position} {o : Operation}
    (h : findOperation name onGraph pos = .ok o) : o.signature.onGraph = onGraph := by
  unfold findOperation at h
  split at h
  · next o' ho =>
    cases h
    have := List.find?_some ho
    simp only [Bool.and_eq_true, beq_iff_eq] at this
    exact this.2
  · cases h

theorem kind_of_checkReceiver {method : String} {subject : Expr} {v : Value}
    (hv : kindOf subject = .ok v.kind) (h : checkReceiver method subject = .ok ()) :
    v.kind = .graph := by
  by_contra hk
  simp [checkReceiver, hv, bind, Except.bind, hk] at h

mutual

/-- An expression is evaluated to a value of the kind that its syntax shows, or fails early. -/
theorem evaluate_endsEarly :
    ∀ e : Expr, EndsEarly (evaluate b e) fun x => kindOf e = .ok x.kind
  | .integer pos n => by rw [evaluate, kindOf]; exact .pure fun _ _ => rfl
  | .text pos s => by rw [evaluate, kindOf]; exact .pure fun _ _ => rfl
  | .name pos word => by rw [evaluate]; exact fail_endsEarly (by nofun)
  | .var pos v => by
    rw [evaluate, kindOf]
    exact (valueOf_endsEarly v pos).mono (fun _ h => h) fun _ _ h => (congrArg Except.ok h).symm
  | .call pos function operands => by
    refine Ends.of_ok (J := fun _ _ => True) ?_ fun d x d' _ hx _ => evaluate_kind _ hx
    rw [evaluate]
    refine require_endsEarly (findOperation_isEarly _ _ _) fun o ho =>
      require_endsEarly (checkArity_isEarly _ _ _ _) fun _ harity =>
        require_endsEarly (checkOperands_isEarly _ _ _ _) fun _ hoperands =>
          bind_endsEarly (evaluateAll_endsEarly operands) fun values hshow =>
            apply_endsEarly ?_ (takes_of_checks hshow harity hoperands)
    rw [Stands, onGraph_of_findOperation ho]
    rfl
  | .apply pos subject operator operands => by
    refine Ends.of_ok (J := fun _ _ => True) ?_ fun d x d' _ hx _ => evaluate_kind _ hx
    rw [evaluate]
    split
    · next hoperator =>
      refine require_endsEarly (kindOf_isEarly _) fun k hk =>
        bind_endsEarly (evaluate_endsEarly subject) fun lhs hlhs =>
          bind_endsEarly (evaluateFirst_endsEarly operands) fun first hfirst => ?_
      cases first with
      | none => exact fail_endsEarly (by nofun)
      | some rhs =>
        refine combine_endsEarly hoperator ?_
        rw [kindOf, if_pos hoperator, hlhs, hfirst] at hk
        cases hcheck : checkInfix operator lhs.kind rhs.kind pos with
        | ok _ => rfl
        | error e => simp [bind, Except.bind, hcheck] at hk
    · refine require_endsEarly (findOperation_isEarly _ _ _) fun o ho =>
        require_endsEarly (checkArity_isEarly _ _ _ _) fun _ harity =>
          require_endsEarly (checkReceiver_isEarly _ _) fun _ hreceiver =>
            require_endsEarly (checkOperands_isEarly _ _ _ _) fun _ hoperands =>
              bind_endsEarly (evaluate_endsEarly subject) fun value hvalue =>
                bind_endsEarly (evaluateAll_endsEarly operands) fun values hshow =>
                  apply_endsEarly ?_ (takes_of_checks hshow harity hoperands)
      rw [Stands, onGraph_of_findOperation ho, Option.map_some, kind_of_checkReceiver hvalue hreceiver]
      rfl

theorem evaluateAll_endsEarly : ∀ es : List Expr, EndsEarly (evaluateAll b es) (ShowKinds es)
  | [] => by rw [evaluateAll]; exact .pure fun _ _ => .nil
  | e :: es => by
    rw [evaluateAll]
    exact bind_endsEarly (evaluate_endsEarly e) fun v hv =>
      bind_endsEarly (evaluateAll_endsEarly es) fun values hshow => .pure fun _ _ => .cons hv hshow

theorem evaluateFirst_endsEarly : ∀ es : List Expr,
    EndsEarly (evaluateFirst b es) fun first => kindOfFirst es = .ok (first.map Value.kind)
  | [] => by rw [evaluateFirst, kindOfFirst]; exact .pure fun _ _ => rfl
  | e :: es => by
    rw [evaluateFirst, kindOfFirst]
    refine bind_endsEarly (evaluate_endsEarly e) fun v hv => .pure fun _ _ => ?_
    rw [hv]
    rfl

end

/-! ## Statements -/

theorem assigned_endsEarly (pos : Position) (target : Variable) (op : AssignOp) (value : Expr) :
    EndsEarly (assigned b pos target op value) fun _ => True := by
  refine require_endsEarly (kindOf_isEarly value) fun kind hkind => ?_
  split
  · split
    · exact (evaluate_endsEarly value).weaken
    · exact fail_endsEarly (by nofun)
  · next operator hoperator =>
    refine bind_endsEarly (valueOf_endsEarly target pos) fun current hcurrent =>
      require_endsEarly (checkInfix_isEarly _ _ _ _) fun _ hcheck =>
        bind_endsEarly (evaluate_endsEarly value) fun operand hoperand =>
          combine_endsEarly ?_ ?_
    · cases op <;> cases hoperator <;> rfl
    · rw [hkind] at hoperand
      rw [hcurrent, ← Except.ok.inj hoperand, hcheck]

theorem assign_endsEarly (pos : Position) (target : Variable) (op : AssignOp) (value : Expr) :
    EndsEarly (assign b pos target op value) fun _ => True := by
  unfold assign
  split
  · exact fail_endsEarly (by nofun)
  · refine (assigned_endsEarly pos target op value).bind fun v d _ => ?_
    simp only [bindTo, runFrom_bind, runFrom_get]
    split
    · exact fail_endsEarly (by nofun) _ trivial
    · exact .inl ⟨_, _, rfl, trivial⟩

/-- A command whose arguments have the kinds it wants has an effect. -/
theorem perform_endsEarly {c : Command} {words : List String} {values : List Value} {pos : Position}
    (h : values.map Value.kind = c.operands) :
    EndsEarly (perform c words values pos : Drafting σ Unit) fun _ => True := by
  have hpush : ∀ i, EndsEarly (push i : Drafting σ Unit) fun _ => True :=
    fun i d _ => .inl ⟨(), _, rfl, trivial⟩
  cases c with
  | dump =>
    obtain ⟨_, rfl, hg⟩ := eq_singleton h
    obtain ⟨g, rfl⟩ := eq_graph hg
    exact hpush _
  | exportDot =>
    obtain ⟨_, _, rfl, hg, hrest⟩ := List.map_eq_cons_iff.1 h
    obtain ⟨g, rfl⟩ := eq_graph hg
    obtain ⟨_, rfl, hfile⟩ := eq_singleton hrest
    obtain ⟨file, rfl⟩ := eq_text hfile
    exact hpush _
  | stat =>
    obtain ⟨_, rfl, hg⟩ := eq_singleton h
    obtain ⟨g, rfl⟩ := eq_graph hg
    exact hpush _
  | native =>
    obtain ⟨_, rfl, hquery⟩ := eq_singleton h
    obtain ⟨query, rfl⟩ := eq_text hquery
    exact hpush _
  | reset =>
    obtain rfl := List.map_eq_nil_iff.1 h
    exact onWorkspace_endsEarly _

theorem command_endsEarly (pos : Position) (name : String) (arguments : List Expr) :
    EndsEarly (command b pos name arguments) fun _ => True := by
  unfold command
  split
  · exact fail_endsEarly (by nofun)
  · next c hc =>
    exact require_endsEarly (splitKeywords_isEarly c arguments) fun (words, others) _ =>
      require_endsEarly (checkKeywords_isEarly _ _ _ _) fun _ _ =>
        require_endsEarly (checkArity_isEarly _ _ _ _) fun _ harity =>
          require_endsEarly (checkOperands_isEarly _ _ _ _) fun _ hoperands =>
            bind_endsEarly (evaluateAll_endsEarly others) fun values hshow =>
              perform_endsEarly
                (kinds_of_checkOperands hshow (length_of_checkArity harity) hoperands)

theorem statement_endsEarly (s : Query.Statement) : EndsEarly (statement b s) fun _ => True := by
  cases s with
  | assignment pos target op value => exact assign_endsEarly pos target op value
  | command pos name arguments => exact command_endsEarly pos name arguments

theorem EndsEarly.ne_unchecked {a : Drafting σ α} {P : α → Prop} (h : EndsEarly a P) (d : Draft σ)
    (name : String) (pos : Position) :
    (a.runFrom d).1 ≠ .error (.resolution (.unchecked name pos)) := by
  obtain ⟨x, d', hx, -⟩ | ⟨e, d', he, hearly⟩ := h d trivial
  · rw [hx]; nofun
  · rw [he]
    rintro ⟨⟩
    exact hearly _ rfl name pos rfl

/-- The union of the base graph with itself, at the beginning of a query. -/
def unionOfBase : Expr := .apply ⟨1, 1⟩ (.var ⟨1, 1⟩ ⟨"$base"⟩) "+" [.var ⟨1, 9⟩ ⟨"$base"⟩]

end Resolution

end Provenance
