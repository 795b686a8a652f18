import Mathlib
import Provenance.Proofs.StoredMetadata

/-!
# Expressions of metadata

An expression of variables stands for metadata: what a variable names, a value that is set for the elements of a
graph, or the sum of two expressions, in which the right one overrides the left one. A query that assigns the
expression to a variable leaves just these values under the variable.
-/

namespace Provenance

open Query Store Database SymbolTable Workspace Action Algebra OrderedMap Resolution Draft

namespace Session

/-- The values that an expression of variables stands for. -/
inductive Denotes (db : Database) : Expr → (Side → Values) → Prop
  | stored (pos : Position) {v : Variable} {name : String} {vs : Side → Values} (hkind : v.kind = .metadata)
    (hname : nameOf? db v.name = some name) (hvs : HoldsMetadata db ⟨name⟩ vs) : Denotes db (.var pos v) vs
  | covered (pos pos₁ pos₂ pos₃ : Position) (coverage : Coverage) (field value : String) {g : Variable} {name : String}
    {ids : Side → List Int} (hkind : g.kind = .graph) (hname : nameOf? db g.name = some name)
    (hids : HoldsSides db ⟨name⟩ ids) :
    Denotes db (.apply pos (.var pos₁ g) (Operation.setMetadata coverage).name [.text pos₂ field, .text pos₃ value])
      (coveredValues coverage ids field value)
  | sum (pos : Position) {e e' : Expr} {V W : Side → Values} (h : Denotes db e V) (h' : Denotes db e' W) :
    Denotes db (.apply pos e "+" [e']) (sumValues V W)

variable {db : Database} {e e' e'' : Expr} {vs U V W : Side → Values}

theorem Known.metadata {v : Variable} {name : String} (hkind : v.kind = .metadata)
    (hname : nameOf? db v.name = some name) : Known db (.metadata ⟨name⟩) := by
  have hknown := Known.bound hname
  rwa [named, if_pos hkind] at hknown

theorem Known.graph {v : Variable} {name : String} (hkind : v.kind = .graph)
    (hname : nameOf? db v.name = some name) : Known db (.graph ⟨name⟩) := by
  have hknown := Known.bound hname
  rwa [named, if_neg (by rw [hkind]; decide)] at hknown

/-- What an expression stands for is a map, if the metadata of variables is of maps. -/
theorem Denotes.isMap (h : Denotes db e vs) (hmaps : Maps (Known db) db) : IsMap vs := by
  induction h with
  | stored pos hkind hname hvs =>
    obtain ⟨vs', hvs', hmap⟩ := hmaps _ (.metadata hkind hname)
    rwa [HoldsMetadata.eq hvs hvs']
  | covered _ _ _ _ coverage field value _ _ _ => exact isMap_coveredValues coverage _ field value
  | sum _ _ _ ih ih' => exact isMap_sumValues ih ih'

theorem Denotes.kindOf (h : Denotes db e vs) : Resolution.kindOf e = .ok .metadata := by
  induction h with
  | stored pos hkind => rw [Resolution.kindOf, hkind]
  | covered _ _ _ _ coverage => cases coverage <;> rfl
  | sum pos _ _ ih ih' =>
    rw [Resolution.kindOf, if_pos (by decide), ih]
    simp [kindOfFirst, ih', checkInfix, infixKinds, bind, Except.bind, pure, Except.pure]

/-! ## Evaluation -/

/-- Instructions of metadata are added to the draft, and the bindings can still be read. -/
structure Fills (d d' : Draft Database) : Prop where
  keeps : ∃ entries, Keeps d'.workspace.store entries
  program : ∃ more, d'.program = d.program ++ more ∧ ∀ i ∈ more, ∃ m, i.written? = some (.metadata m)

theorem Fills.trans {d d' d'' : Draft Database} (h : Fills d d') (h' : Fills d' d'') : Fills d d'' := by
  obtain ⟨more, hprogram, hmore⟩ := h.program
  obtain ⟨more', hprogram', hmore'⟩ := h'.program
  refine ⟨h'.keeps, more ++ more', by rw [hprogram', hprogram, List.append_assoc], fun i hi => ?_⟩
  exact (List.mem_append.1 hi).elim (hmore i) (hmore' i)

theorem Fills.mem {d d' : Draft Database} (h : Fills d d') {i : Instruction} (hi : i ∈ d.program) : i ∈ d'.program := by
  obtain ⟨more, hprogram, -⟩ := h.program
  rw [hprogram]
  exact List.mem_append_left more hi

/-- A plan of metadata is carried out. -/
theorem exists_run (fill : Metadata → Instruction) (hfill : ∀ m, (fill m).written? = some (.metadata m))
    {d : Draft Database} (hkeeps : ∃ entries, Keeps d.workspace.store entries) : ∃ m d',
      (newMetadata Backend.memory fill).runFrom d = (.ok (.metadata m), d') ∧ Fills d d' ∧ fill m ∈ d'.program := by
  obtain ⟨entries, hk⟩ := hkeeps
  obtain ⟨hfails, -⟩ | ⟨db, hfresh, hk'⟩ := freshNumber_spec Backend.isDatabase_memory (w := d.workspace) hk
  · exact hfails.elim
  · have hrun := (Plan.metadata fill).runFrom_run (b := Backend.memory) d
    rw [hfresh] at hrun
    refine ⟨_, _, hrun, ⟨⟨_, hk'⟩, _, rfl, ?_⟩, by simp [Plan.instructions]⟩
    exact List.forall_mem_cons.2 ⟨⟨_, rfl⟩, List.forall_mem_singleton.2 ⟨_, hfill _⟩⟩

theorem evaluate_variable {v : Variable} {name : String} {d : Draft Database}
    (hname : d.workspace.symbols.lookup? v.name = some name) (pos : Position) :
    (Resolution.evaluate Backend.memory (.var pos v)).runFrom d = (.ok (named v name), d) := by
  rw [Resolution.evaluate, runFrom_valueOf, hname]

/-- A value that is set for a graph passes all checks, and is filled into new metadata. -/
theorem evaluate_setMetadata (pos pos₁ pos₂ pos₃ : Position) (coverage : Coverage) (field value : String)
    {g : Variable} {name : String} {d : Draft Database} (hkind : g.kind = .graph)
    (hname : d.workspace.symbols.lookup? g.name = some name) :
    (Resolution.evaluate Backend.memory (.apply pos (.var pos₁ g) (Operation.setMetadata coverage).name
        [.text pos₂ field, .text pos₃ value])).runFrom d
      = (newMetadata Backend.memory fun t => .setMetadata t coverage ⟨name⟩ field value).runFrom d := by
  have hfind : findOperation (Operation.setMetadata coverage).name true pos = .ok (.setMetadata coverage) := by
    cases coverage <;> rfl
  have hreceiver : checkReceiver (Operation.setMetadata coverage).name (.var pos₁ g) = .ok () := by
    rw [checkReceiver, Resolution.kindOf, hkind]
    rfl
  have harity : checkArity (Operation.setMetadata coverage).name (Operation.setMetadata coverage).signature.arity
      [Expr.text pos₂ field, .text pos₃ value].length pos = .ok () := rfl
  have hoperands : checkOperands (Operation.setMetadata coverage).name 0
      (Operation.setMetadata coverage).signature.operands [.text pos₂ field, .text pos₃ value] = .ok () := rfl
  have hvalues : evaluateAll Backend.memory [.text pos₂ field, .text pos₃ value]
      = pure [.text field, .text value] := rfl
  have hgraph : named g name = .graph ⟨name⟩ := if_neg (by rw [hkind]; decide)
  rw [Resolution.evaluate, if_neg (by cases coverage <;> decide), hfind, require_ok_bind, harity, require_ok_bind,
    hreceiver, require_ok_bind, hoperands, require_ok_bind, runFrom_bind_ok (evaluate_variable hname pos₁), hvalues,
    hgraph]
  rfl

/-- A sum fills new metadata from what its sides are evaluated to. -/
theorem evaluate_sum (pos : Position) {d d₁ d₂ : Draft Database} {lhs rhs : Metadata}
    (hkind : Resolution.kindOf (.apply pos e "+" [e']) = .ok .metadata)
    (hlhs : (Resolution.evaluate Backend.memory e).runFrom d = (.ok (.metadata lhs), d₁))
    (hrhs : (Resolution.evaluate Backend.memory e').runFrom d₁ = (.ok (.metadata rhs), d₂)) :
    (Resolution.evaluate Backend.memory (.apply pos e "+" [e'])).runFrom d
      = (newMetadata Backend.memory fun t => .overwriteMetadata t lhs rhs).runFrom d₂ := by
  have hfirst : (evaluateFirst Backend.memory [e']).runFrom d₁ = (.ok (some (.metadata rhs)), d₂) := by
    rw [evaluateFirst, runFrom_bind_ok hrhs]
    rfl
  rw [Resolution.evaluate, if_pos (by decide), hkind, require_ok_bind, runFrom_bind_ok hlhs, runFrom_bind_ok hfirst]
  rfl

/-- What an expression is evaluated to has the values that the expression stands for, in every database in which
variables name the same and what the program fills is settled. -/
theorem Denotes.evaluate (h : Denotes db e vs) {d : Draft Database}
    (hkeeps : ∃ entries, Keeps d.workspace.store entries)
    (hlookup : ∀ var, d.workspace.symbols.lookup? var = nameOf? db var) : ∃ m d',
      (Resolution.evaluate Backend.memory e).runFrom d = (.ok (.metadata m), d') ∧ Fills d d' ∧
      ∀ u, SameHandles (Known db) db u → (∀ i ∈ d'.program, i.Settled u) → HoldsMetadata u m vs := by
  induction h generalizing d with
  | @stored pos v name vs hkind hname hvs =>
    have hrun := evaluate_variable ((hlookup v.name).trans hname) pos
    rw [named, if_pos hkind] at hrun
    exact ⟨⟨name⟩, d, hrun, ⟨hkeeps, [], by simp, by simp⟩, fun u hu _ => hu.metadata (.metadata hkind hname) hvs⟩
  | @covered pos pos₁ pos₂ pos₃ coverage field value g name ids hkind hname hids =>
    obtain ⟨m, d', hrun, hfills, hmem⟩ := exists_run (fun t => .setMetadata t coverage ⟨name⟩ field value)
      (fun _ => rfl) hkeeps
    have heq := evaluate_setMetadata pos pos₁ pos₂ pos₃ coverage field value hkind ((hlookup g.name).trans hname)
    refine ⟨m, d', heq.trans hrun, hfills, fun u hu hsettled => ?_⟩
    obtain ⟨ids', hids', hm⟩ := hsettled _ hmem
    rwa [sides_eq hids' (hu.graph (.graph hkind hname) hids)] at hm
  | @sum pos e e' V W h h' ih ih' =>
    obtain ⟨lhs, d₁, hlhs, hfills₁, hV⟩ := ih hkeeps hlookup
    obtain ⟨rhs, d₂, hrhs, hfills₂, hW⟩ := ih' hfills₁.keeps fun var => by
      rw [(evaluate_extends e hlhs).1.lookup?, hlookup]
    obtain ⟨m, d₃, hrun, hfills₃, hmem⟩ := exists_run (fun t => .overwriteMetadata t lhs rhs) (fun _ => rfl)
      hfills₂.keeps
    refine ⟨m, d₃, (evaluate_sum pos (h.sum pos h').kindOf hlhs hrhs).trans hrun, (hfills₁.trans hfills₂).trans hfills₃,
      fun u hu hsettled => ?_⟩
    obtain ⟨V', W', hlhs, hrhs, hm⟩ := hsettled _ hmem
    rwa [hlhs.eq (hV u hu fun i hi => hsettled i (hfills₃.mem (hfills₂.mem hi))),
      hrhs.eq (hW u hu fun i hi => hsettled i (hfills₃.mem hi))] at hm

/-! ## Queries -/

/-- The base graph is not metadata. -/
theorem ne_baseVariable {x : Variable} (hkind : x.kind = .metadata) : x.name ≠ baseVariable := by
  obtain ⟨name⟩ := x
  rintro rfl
  exact absurd hkind (by decide)

/-- An assignment binds the variable to what the expression is evaluated to. -/
theorem Denotes.statement (h : Denotes db e vs) {d : Draft Database}
    (hkeeps : ∃ entries, Keeps d.workspace.store entries)
    (hlookup : ∀ var, d.workspace.symbols.lookup? var = nameOf? db var) {x : Variable} (hkind : x.kind = .metadata)
    (pos : Position) : ∃ m d',
      (Resolution.statement Backend.memory (.assignment pos x .set e)).runFrom d = (.ok (), d') ∧ Fills d d' ∧
      d'.workspace.symbols.bindings.find? x.name = some m.name ∧
      ∀ u, SameHandles (Known db) db u → (∀ i ∈ d'.program, i.Settled u) → HoldsMetadata u m vs := by
  have hbase := ne_baseVariable hkind
  obtain ⟨m, d', hrun, hfills, hvalues⟩ := h.evaluate hkeeps hlookup
  have hassigned : (assigned Backend.memory pos x .set e).runFrom d = (.ok (.metadata m), d') := by
    rw [assigned, h.kindOf, require_ok_bind]
    exact (congrArg (runFrom · d) (if_pos hkind.symm)).trans hrun
  obtain ⟨d'', hbind, hprogram, hstore, hfind⟩ : ∃ d'', (bindTo x (.metadata m)).runFrom d' = (.ok (), d'') ∧
      d''.program = d'.program ∧ d''.workspace.store = d'.workspace.store ∧
      d''.workspace.symbols.bindings.find? x.name = some m.name := by
    simp only [bindTo, runFrom_bind, runFrom_get, SymbolTable.bind?, if_neg hbase]
    exact ⟨_, rfl, rfl, rfl, (OrderedMap.find?_insert _ _ _ _).trans (if_pos rfl)⟩
  refine ⟨m, d'', ?_, ⟨by rw [hstore]; exact hfills.keeps, by rw [hprogram]; exact hfills.program⟩, hfind, ?_⟩
  · rw [Resolution.statement, assign, if_neg hbase, runFrom_bind_ok hassigned, hbind]
  · rwa [hprogram]

/-- A query that assigns the expression to a variable of metadata succeeds, and leaves just these values under the
variable. -/
def Assigns (made : Nat) (db : Database) (e : Expr) (vs : Side → Values) : Prop :=
  ∀ (query : String) (pos : Position) (x : Variable), x.kind = .metadata →
    parse query = .ok [.assignment pos x .set e] → made + Query.cost query < 2 ^ 63 →
    ∃ db' name, (execute Backend.memory query).runFrom db = (.ok .ok, db') ∧ nameOf? db' x.name = some name ∧
      HoldsMetadata db' ⟨name⟩ vs

section Query

variable {db' : Database} {t : SymbolTable} (hwhole : Whole db)
  (hload : (load Backend.memory).runFrom db = (.ok t, db'))
include hwhole hload

/-- An assignment is resolved to a program that only fills metadata, and binds the variable to what has the values of
the expression when all is filled. -/
theorem Denotes.resolve (h : Denotes db e vs) {x : Variable} (hkind : x.kind = .metadata) (pos : Position) :
    ∃ m program w, (Resolution.resolve Backend.memory [.assignment pos x .set e]).runFrom ⟨t, db'⟩ = (.ok program, w) ∧
      (∀ i ∈ program, ∃ m, i.written? = some (.metadata m)) ∧ w.symbols.bindings.find? x.name = some m.name ∧
      ∀ u, SameHandles (Known db) db u → (∀ i ∈ program, i.Settled u) → HoldsMetadata u m vs := by
  have hb := Backend.isDatabase_memory
  have hmirrors : Mirrors id (fun _ => True) ⟨t, db'⟩ := mirrors_load hb hwhole.intact (fun _ _ _ => trivial) hload
  obtain ⟨entries, hkeeps, -⟩ := hmirrors.keeps
  obtain ⟨m, d, hd, hfills, hbound, hvalues⟩ := h.statement (d := ⟨⟨t, db'⟩, []⟩) ⟨entries, hkeeps⟩
    (fun var => (hwhole.lookup?_loaded hload var).trans (hwhole.nameOf?_loaded hload var)) hkind pos
  have hdraft : ([Query.Statement.assignment pos x .set e].forM (Resolution.statement Backend.memory)).runFrom
      ⟨⟨t, db'⟩, []⟩ = (.ok (), d) := by
    rw [Action.forM_cons, runFrom_bind_ok hd]
    rfl
  obtain ⟨hresolve, hbindings⟩ := resolve_of_draft hb hmirrors hdraft
  obtain ⟨more, hprogram, hmore⟩ := hfills.program
  exact ⟨m, d.program, _, hresolve, by rwa [hprogram], by rwa [hbindings], hvalues⟩

end Query

theorem Denotes.assigns (h : Denotes db e vs) (hwhole : Whole db) (hmaps : Maps (Known db) db) {made : Nat}
    (hnumbered : Numbered made db) : Assigns made db e vs := by
  intro query pos x hkind hparse hroom
  have hb := Backend.isDatabase_memory
  have hreadable := fun st hst => Query.isReadable_of_parse hparse st hst
  have hnative : ∀ st ∈ [Query.Statement.assignment pos x .set e], st.isNative = false := by
    simp [Query.Statement.isNative]
  rw [Query.cost, hparse] at hroom
  obtain ⟨t, db', -, hload, -⟩ := load_reliable hb hwhole.intact hwhole.counter
  obtain ⟨hloaded, -⟩ := hwhole.loaded hb hload
  obtain ⟨m, program, w, hresolve, honly, hbound, hvalues⟩ := h.resolve hwhole hload hkind pos
  have hspares := hwhole.spares_resolve hload [.assignment pos x .set e]
  rw [hresolve] at hspares
  -- the program only fills metadata, so it succeeds
  obtain ⟨u, hreplies⟩ := (hwhole.isResolved hload hreadable hnative hnumbered hroom hresolve).exists_replies
    hloaded.proper (hspares.meets hloaded.meets) ((hspares.sameHandles _).maps (hwhole.maps_loaded hload hmaps)) honly
  have houtcome := hwhole.outcome hload hreadable hnative hnumbered hroom hresolve hmaps hreplies
  have hresult := runFrom_resolveAndRun_ok hresolve
  rw [runFrom_run_of_replies hreplies] at hresult
  obtain ⟨db'', hexecute, hview⟩ := runFrom_execute hb hparse hload hresult
  obtain ⟨e', he', -⟩ | ⟨-, hafter, hagrees⟩ := hwhole.resolveAndRun hb hload hreadable hnative
  · rw [hresult] at he'
    cases he'
  rw [hresult] at hafter hagrees
  -- the collection leaves the variable and its metadata
  have hcounter : x.name ≠ counterKey := fun heq =>
    Query.assigned?_ne_counterKey (hreadable _ List.mem_cons_self) (congrArg some heq)
  have hname : nameOf? u x.name = some m.name := by
    rw [nameOf?, if_neg (ne_baseVariable hkind), ← hbound]
    exact (hagrees x.name hcounter).symm
  have hsame : SameHandles (Known db) db u :=
    (((spares_loaded hload).sameHandles _).trans (hspares.sameHandles _)).trans
      (houtcome.same.mono fun v hv => hv.mono fun var => (hwhole.nameOf?_loaded hload var).symm)
  obtain rfl : db'' = _ := hview
  refine ⟨_, m.name, hexecute, ?_, Whole.metadata_collected hafter hagrees (.metadata hkind hname)
    (hvalues u hsame houtcome.settled)⟩
  rw [← hname]
  exact nameOf?_congr (storedName?_congr table?_relation_collected) x.name

/-! ## Laws of metadata -/

/-- The programs of queries fill metadata with the values that their instructions mean, and it is of maps. -/
theorem settled_of_program {made : Nat} (hwhole : Whole db) (hmaps : Maps (Known db) db) (hnumbered : Numbered made db)
    {query : String} (hplain : Query.IsPlain query) (hroom : made + Query.cost query < 2 ^ 63) {program : Program}
    {x u : Database} {answers : List Answer} (hprogram : program? Backend.memory query db = some (program, x))
    (hreplies : program.Replies Backend.memory x answers u) :
    (∀ i ∈ program, i.Settled u) ∧ Maps (Program.Makes program) u := by
  obtain ⟨ss, t, db', w, hparse, hload, hresolve, rfl⟩ := program?_eq_some hprogram
  have hreadable := fun st hst => Query.isReadable_of_parse hparse st hst
  rw [Query.cost, hparse] at hroom
  have houtcome := hwhole.outcome hload hreadable (hplain ss hparse) hnumbered hroom hresolve hmaps hreplies
  exact ⟨houtcome.settled, fun m hm => houtcome.maps m (.inr hm)⟩

/-- Metadata is of maps, of which the right one overrides the left one. -/
structure MetadataLaws (made : Nat) (db : Database) : Prop where
  /-- What variables name has at most one value for each id and name, on each side. -/
  stored {v : Variable} {name : String} (hkind : v.kind = .metadata) (hname : nameOf? db v.name = some name) :
    ∃ vs, HoldsMetadata db ⟨name⟩ vs ∧ IsMap vs ∧ ∀ pos, Denotes db (.var pos v) vs
  /-- So has all that the program of a query makes, and it has the values that each instruction means. -/
  settled {query : String} (hplain : Query.IsPlain query) (hroom : made + Query.cost query < 2 ^ 63)
    {program : Program} {x u : Database} {answers : List Answer}
    (hprogram : program? Backend.memory query db = some (program, x))
    (hreplies : program.Replies Backend.memory x answers u) :
    (∀ i ∈ program, i.Settled u) ∧ Maps (Program.Makes program) u
  /-- What an expression stands for can be assigned. -/
  assigns {e : Expr} {vs : Side → Values} (h : Denotes db e vs) : IsMap vs ∧ Assigns made db e vs
  /-- A value that is set has one row for each distinct id of a covered side, and no other rows. -/
  set {g : Variable} {name : String} (hkind : g.kind = .graph) (hname : nameOf? db g.name = some name) :
    ∃ ids, HoldsSides db ⟨name⟩ ids ∧ ∀ (coverage : Coverage) (field value : String) (pos pos₁ pos₂ pos₃ : Position),
      ∃ vs, Assigns made db (.apply pos (.var pos₁ g) (Operation.setMetadata coverage).name
          [.text pos₂ field, .text pos₃ value]) vs ∧
        ∀ side p, (vs side).count p
          = if side ∈ coverage.sides ∧ p.1.1 ∈ ids side ∧ p.1.2 = field ∧ p.2 = value then 1 else 0
  /-- A sum has the values on the right, and those on the left that have none there. -/
  lookup (U V : Side → Values) : ∃ S : Side → Values,
    (∀ side key, find? (S side) key = (find? (V side) key).or (find? (U side) key)) ∧
      ∀ pos a b, Denotes db a U → Denotes db b V → Assigns made db (.apply pos a "+" [b]) S
  /-- Both nestings of a sum leave the same rows. -/
  assoc (U V W : Side → Values) : ∃ T, ∀ pos pos' a b c, Denotes db a U → Denotes db b V → Denotes db c W →
    Assigns made db (.apply pos (.apply pos' a "+" [b]) "+" [c]) T ∧
      Assigns made db (.apply pos a "+" [.apply pos' b "+" [c]]) T
  /-- The sum of equal metadata leaves the same rows. -/
  self {U : Side → Values} {a b : Expr} (pos : Position) (ha : Denotes db a U) (hb : Denotes db b U) :
    Assigns made db (.apply pos a "+" [b]) U

/-- A graph that lists a vertex twice. -/
def repeatedVertex : String := "$g = vertices(1, 1, 2)"

end Session

end Provenance
