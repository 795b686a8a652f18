import Provenance.Proofs.Replies
import Provenance.Proofs.Stages

/-!
# Operations in a store and on a stage
-/

namespace Provenance

open Store Action Resolution Meaning Direct
open Backend.Tracks (Moves)

variable {σ : Type} {b : Backend σ} {view : σ → Database}

/-- A reliable store follows the store in memory. -/
theorem Backend.Tracks.database (hb : b.IsDatabase view False) {T : String → String} {W U : Set String}
    (hT : Separates T W U) (hscratch : ∀ table, IsScratch table → table ∈ W ∧ T table = table) :
    Backend.Tracks Backend.memory b T W (fun D db s => Staged T U D db (view s)) := by
  have hmemory := Backend.Tracks.memory hT hscratch
  have hsame : ∀ {α : Type} {D E : Set String} {a a' : Action Database BackendError α}
      {c : Action σ BackendError α}, Follows (Staged T U D) (Staged T U E) a a' →
      (∀ s, Backend.Attempts False view c a' s) →
      Follows (fun db s => Staged T U D db (view s)) (fun db s => Staged T U E db (view s)) a c := by
    intro α D E a a' c hfollows hattempts db s hst
    obtain ⟨hfalse, -⟩ | ⟨hresult, hview⟩ := hattempts s
    · exact hfalse.elim
    · rcases hfollows db (view s) hst with ⟨e, e', db', t, ha, ha'⟩ | ⟨x, db', t, ha, ha', hst'⟩
      · rw [ha'] at hresult
        exact .inl ⟨e, e', db', (c.runFrom s).2, ha, Prod.ext hresult rfl⟩
      · rw [ha'] at hresult hview
        refine .inr ⟨x, db', (c.runFrom s).2, ha, Prod.ext hresult rfl, ?_⟩
        show Staged T U E db' (view (c.runFrom s).2)
        rw [hview]
        exact hst'
  exact ⟨fun closed _ _ _ _ h => hsame (hmemory.execute closed h) (hb.execute _),
    fun closed _ _ _ _ h => hsame (hmemory.queryRows closed h) (hb.queryRows _),
    fun D E db s hE h => hmemory.mono D E db (view s) hE h, hscratch⟩

/-- A planned operation that is natural, and uses its operands and its target only. -/
structure IsOperation (plan : Option Value → List Value → Option Plan) : Prop where
  natural : IsNatural plan
  proper : ∀ {subject operands p}, plan subject operands = some p → p.Proper
  ready : ∀ {subject operands p}, plan subject operands = some p →
    p.IsReady fun v => v ∈ subject ∨ v ∈ operands

theorem isOperation_planCall (o : Operation) : IsOperation (planCall o) :=
  ⟨planCall_natural o, planCall_proper, fun h => planCall_isReady h (fun _ => .inl) fun _ => .inr⟩

theorem isOperation_planPair (operator : String) : IsOperation (planPair operator) where
  natural H subject operands p' h := by
    unfold planPair at h
    split at h
    · next lhs rhs hs hv =>
      obtain ⟨l, rfl, rfl⟩ := Option.map_eq_some_iff.1 hs
      obtain ⟨r, hr, rfl⟩ := List.map_eq_singleton_iff.1 hv
      subst hr
      exact planInfix_natural h
    · cases h
  proper {subject operands p} h := by
    unfold planPair at h
    split at h
    · exact planInfix_proper h
    · cases h
  ready {subject operands p} h := by
    unfold planPair at h
    split at h
    · exact planInfix_isReady h (.inl rfl) (.inr List.mem_cons_self)
    · cases h

/-- Operands at their places. -/
def placesOf (subject : Option Value) (operands : List Value) : List (Value × Nat) :=
  (subject.map (·, 0)).toList ++ operands.zipIdx 1

theorem placesOf_nodup (subject : Option Value) (operands : List Value) :
    ((placesOf subject operands).map Prod.snd).Nodup := by
  rw [placesOf, List.map_append, List.zipIdx_map_snd]
  refine List.nodup_append.2 ⟨?_, List.nodup_range', ?_⟩
  · cases subject <;> simp
  · intro i hi j hj
    obtain rfl : i = 0 := by cases subject <;> simp_all
    have := (List.mem_range'_1.1 hj).1
    omega

theorem mem_placesOf {subject : Option Value} {operands : List Value} {v : Value} {i : Nat}
    (h : (v, i) ∈ placesOf subject operands) : v ∈ subject ∨ v ∈ operands := by
  obtain h | h := List.mem_append.1 h
  · cases subject with
    | none => cases h
    | some s =>
      cases List.mem_singleton.1 h
      exact .inl rfl
  · exact .inr (List.fst_mem_of_mem_zipIdx h)

theorem placedIn_placesOf (db : Database) (subject : Option Value) (operands : List Value) :
    placedIn db (placesOf subject operands)
      = ((subject.map (Meaning.of db)).map (·, 0)).toList ++ (operands.map (Meaning.of db)).zipIdx 1 := by
  rw [placedIn, placesOf, List.map_append, List.zipIdx_map]
  cases subject <;> rfl

/-- What stands for an operand on the stage is the operand, once names are replaced. -/
theorem under_standIn {cast : Cast} {role made : String} (hfair : cast.IsFair role made) {db : Database}
    {v : Value} {i : Nat} (hmem : v.IsHandle → (stageName (v.shown == Graph.base.name) i, v.shown) ∈ cast) :
    ((Meaning.of db v).standIn i).under cast.rename = v := by
  cases v with
  | graph g =>
    exact congrArg (fun name => Value.graph ⟨name⟩) (hfair.rename_role (hmem (.inl rfl)))
  | metadata m =>
    exact congrArg (fun name => Value.metadata ⟨name⟩) (hfair.rename_role (hmem (.inr rfl)))
  | integer n => rfl
  | text s => rfl

theorem Plan.Matches.value_shown {H : String → String} {p p' : Plan} (h : p.Matches H p') (n : Int) :
    (p.value n).shown = (p'.value n).shown := by
  cases h <;> rfl

theorem Plan.isNumbered_value (p : Plan) (n : Int) : IsNumbered n (p.value n).shown := by
  cases p with
  | graph fill => exact .inl rfl
  | metadata fill => exact .inr rfl

/-- A handle that is filled alike in two databases stands for the same in both. -/
theorem Plan.Matches.of_eq {H : String → String} {p p' : Plan} (h : p.Matches H p') {m n : Int}
    {db db' : Database} (hsame : Holding.of db (p.value m).shown = Holding.of db' (p'.value n).shown) :
    Meaning.of db (p.value m) = Meaning.of db' (p'.value n) := by
  cases h
  · exact congrArg Meaning.graph hsame
  · exact congrArg Meaning.metadata hsame

/-- The values by which operands are used on a stage. -/
def standIns (db : Database) (operands : List Value) : List Value :=
  ((operands.map (Meaning.of db)).zipIdx 1).map fun (m, i) => m.standIn i

theorem standIns_eq (db : Database) (operands : List Value) :
    standIns db operands = (operands.zipIdx 1).map fun (v, i) => (Meaning.of db v).standIn i := by
  rw [standIns, List.zipIdx_map, List.map_map]
  rfl

theorem mem_standIns {db : Database} {subject : Option Value} {operands : List Value} {v : Value}
    (h : v ∈ (subject.map (Meaning.of db)).map (standIn 0) ∨ v ∈ standIns db operands) :
    ∃ u i, (u, i) ∈ placesOf subject operands ∧ v = (Meaning.of db u).standIn i := by
  obtain h | h := h
  · rw [Option.map_map] at h
    obtain ⟨u, rfl, rfl⟩ := Option.map_eq_some_iff.1 h
    exact ⟨u, 0, List.mem_append_left _ List.mem_cons_self, rfl⟩
  · rw [standIns_eq] at h
    obtain ⟨⟨u, i⟩, hu, rfl⟩ := List.mem_map.1 h
    exact ⟨u, i, List.mem_append_right _ hu, rfl⟩

theorem standIn_isHandle {db : Database} {u : Value} {i : Nat}
    (h : ((Meaning.of db u).standIn i).IsHandle) :
    u.IsHandle ∧ ((Meaning.of db u).standIn i).shown = stageName (u.shown == Graph.base.name) i := by
  cases u with
  | graph g => exact ⟨.inl rfl, rfl⟩
  | metadata m => exact ⟨.inr rfl, rfl⟩
  | integer n => exact ⟨h, by simp [Meaning.of, standIn, Value.IsHandle, Value.kind] at h⟩
  | text s => exact ⟨h, by simp [Meaning.of, standIn, Value.IsHandle, Value.kind] at h⟩

theorem Graph.isBase_mk (name : String) : (⟨name⟩ : Graph).isBase = (name == Graph.base.name) :=
  Bool.eq_iff_iff.2 (by rw [Graph.isBase, beq_iff_eq, beq_iff_eq, ← Graph.mk.injEq])

/-- Two handles have the same tables in two databases, if those of the one are copies of those of the
other. -/
theorem Holding.of_eq {T : String → String} {D : Set String} {db db' : Database} {name name' : String}
    (hcopies : Copies T D db db') (hmoves : Moves T D ⟨name⟩ ⟨name'⟩) :
    Holding.of db name = Holding.of db' name' := by
  have hbase := hmoves.isBase
  rw [Graph.isBase_mk, Graph.isBase_mk] at hbase
  rw [Holding.of, Holding.of, hbase]
  refine congrArg (Holding.mk _) (funext fun side => ?_)
  have hcopy := hcopies _ (hmoves.stands side).known
  rw [(hmoves.stands side).same] at hcopy
  exact hcopy.symm

section Operate

variable {subject : Option Value} {operands : List Value} {role made : String} {db : Database}

/-- Operands move from the stage to the store. -/
theorem moves_operand (hrole : IsNumbered 0 role)
    (hfair : (castOf role made (placesOf subject operands)).IsFair role made) {u : Value} {i : Nat}
    (hu : (u, i) ∈ placesOf subject operands) (hhandle : ((Meaning.of db u).standIn i).IsHandle) :
    Moves (castOf role made (placesOf subject operands)).tables.rename
      (known (castOf role made (placesOf subject operands)) role)
      ⟨((Meaning.of db u).standIn i).shown⟩
      ⟨(castOf role made (placesOf subject operands)).rename ((Meaning.of db u).standIn i).shown⟩ := by
  obtain ⟨hu', hshown⟩ := standIn_isHandle hhandle
  have hmem : (_, u.shown) ∈ castOf role made (placesOf subject operands) := casting_mem hu hu'
  rw [hshown, hfair.rename_role hmem]
  refine ⟨fun side => ⟨.inr ⟨_, hmem, stageName_ne_role hrole, side, rfl⟩, hfair.rename_table hmem side⟩, ?_⟩
  rw [Graph.isBase_mk, Graph.isBase_mk]
  exact Bool.eq_iff_iff.2 (by rw [beq_iff_eq, beq_iff_eq]; exact (hfair.base _ hmem).symm)

/-- So does the target, once it is made. -/
theorem Cast.IsFair.moves_target {cast : Cast} (hfair : cast.IsFair role made) (D : Set String) :
    Moves cast.tables.rename (withTables D role) ⟨role⟩ ⟨made⟩ := by
  refine ⟨fun side => ⟨?_, hfair.rename_table hfair.target side⟩, ?_⟩
  · cases side
    · exact .inr (.inl rfl)
    · exact .inl rfl
  · rw [Graph.isBase_mk, Graph.isBase_mk]
    exact Bool.eq_iff_iff.2 (by rw [beq_iff_eq, beq_iff_eq]; exact (hfair.base _ hfair.target).symm)

/-- A reliable store follows the store in memory from the stage. -/
theorem Cast.IsFair.tracks {cast : Cast} (hb : b.IsDatabase view False) (hfair : cast.IsFair role made) :
    Backend.Tracks Backend.memory b cast.tables.rename (Cast.written role)
      (fun D db s => Staged cast.tables.rename (Cast.onStage cast) D db (view s)) :=
  .database hb hfair.separates fun _ ht => ⟨.inl ht, hfair.rename_other fun _ side hname =>
    Cast.ne_table_of_isScratch ht hname side⟩

theorem Cast.IsFair.keepsKnown {cast : Cast} (hfair : cast.IsFair role made) :
    KeepsKnown cast.tables.rename (known cast role) :=
  fun _ ht => ⟨.inl ht, hfair.rename_other fun _ side hname => Cast.ne_table_of_mem_knownTables ht hname side⟩

end Operate

/-- Carrying out a plan under a number leaves in the store what the operation gives. -/
theorem operate_agrees (hb : b.IsDatabase view False)
    {plan : Option Value → List Value → Option Plan} (hplan : IsOperation plan) {subject : Option Value}
    {operands : List Value} {p' : Plan} (hp' : plan subject operands = some p') {n : Int}
    (hown : ∀ v, v ∈ subject ∨ v ∈ operands → v.IsHandle → IsOwn v.shown ∧ v.shown ≠ (p'.value n).shown)
    (s : σ) : Program.Yields b (p'.instructions n) s
      (fun m answers t => answers = [] ∧ Meaning.of (view t) (p'.value n) = m)
      (operate (view s).baseRelations plan (subject.map (Meaning.of (view s)))
        (operands.map (Meaning.of (view s)))) := by
  let db := view s
  let role := (p'.value 0).shown
  let made := (p'.value n).shown
  let placed := placesOf subject operands
  let cast := castOf role made placed
  have hrole : IsNumbered 0 role := p'.isNumbered_value 0
  have hfair : cast.IsFair role made :=
    castOf_isFair hrole (p'.isNumbered_value n).isGenerated (placesOf_nodup _ _)
      fun v i hv => hown v (mem_placesOf hv)
  have hstand : ∀ v i, (v, i) ∈ placed → ((Meaning.of db v).standIn i).under cast.rename = v :=
    fun v i hv => under_standIn hfair (casting_mem hv)
  -- The operation is planned on the stage as it is in the store.
  have hsubject : ((subject.map (Meaning.of db)).map (standIn 0)).map (Value.under cast.rename) = subject := by
    cases subject with
    | none => rfl
    | some v => exact congrArg some (hstand v 0 (List.mem_append_left _ List.mem_cons_self))
  have hoperands : (standIns db operands).map (Value.under cast.rename) = operands := by
    rw [standIns_eq, List.map_map]
    refine (List.map_congr_left fun p hp => ?_).trans (List.zipIdx_map_fst 1 operands)
    exact hstand p.1 p.2 (List.mem_append_right _ hp)
  obtain ⟨p, hp, hmatches⟩ := hplan.natural cast.rename _ _ p' (by rw [hsubject, hoperands]; exact hp')
  have heffect : operate db.baseRelations plan (subject.map (Meaning.of db)) (operands.map (Meaning.of db))
      = effect db.baseRelations (placedIn db placed) p := by
    rw [placedIn_placesOf]
    exact congrArg (Option.bind · _) hp
  have hshown : (p.value 0).shown = role := hmatches.value_shown 0
  have hmoves := hfair.moves_target (known cast role)
  -- Its instructions do there what they do in the store.
  have hfollows := hmatches.follows (m := 0) (n := n) (hfair.tracks hb) hfair.keepsKnown
    (by rw [hshown]; exact hfair.rename_role hfair.target) (hplan.proper hp) (hplan.ready hp)
    (fun v hv hhandle => by
      obtain ⟨u, i, hu, rfl⟩ := mem_standIns hv
      exact moves_operand hrole hfair hu hhandle)
    (by rw [hshown]; exact ⟨fun side => .inr ⟨side, rfl⟩, hfair.rename_table hfair.target⟩)
    (by rw [hshown]; exact hmoves.isBase)
  rw [heffect]
  rcases hfollows ⟨stage db.baseRelations (placedIn db placed), none⟩ ⟨s, none⟩
    (staged_stage hrole hfair) with ⟨e, e', y, x', hy, hx'⟩ | ⟨⟨⟩, y, x', hy, hx', hstaged⟩
  · rw [effect, hy]
    exact .failed (Program.fails_of_execute hx')
  · obtain ⟨answers, hreplies⟩ := Program.replies_of_execute hx'
    have hsilent : answers = [] := hreplies.silent fun i hi => by
      rw [((hplan.proper hp').targets n i hi).1]
      exact Option.some_ne_none _
    rw [effect, hy]
    rw [hshown] at hstaged
    refine .done hreplies ⟨hsilent, (hmatches.of_eq (Holding.of_eq hstaged.copies ?_)).symm⟩
    rw [hshown]
    exact hmoves

/-! ## Commands that read -/

/-- An instruction that reads a graph and answers, whatever the graph is called. -/
structure IsReading (read : Graph → Instruction) : Prop where
  under : ∀ H g, (read g).under H = read (g.under H)
  uses : ∀ g, ∀ v ∈ (read g).uses, v = .graph g
  target : ∀ g, (read g).target? = none
  native : ∀ g, (read g).isNative = false
  answers : ∀ {σ : Type} (b : Backend σ) (g : Graph) (s t : σ) (answer : Option Answer),
    ((read g).execute b).runFrom s = (.ok answer, t) → answer ≠ none

theorem runFrom_some_ne_none {α ε : Type} {a : Action σ ε α} {s t : σ} {x : Option α}
    (h : (some <$> a).runFrom s = (.ok x, t)) : x ≠ none := by
  rw [runFrom_map] at h
  split at h
  · cases h; exact Option.some_ne_none _
  · cases h

theorem isReading_stat : IsReading .stat :=
  ⟨fun _ _ => rfl, fun _ _ hv => List.mem_singleton.1 hv, fun _ => rfl, fun _ => rfl,
    fun _ _ _ _ _ h => runFrom_some_ne_none h⟩

theorem isReading_exportGraph (format : ExportFormat) (force : Bool) (file : Option String) :
    IsReading (.exportGraph · format force file) :=
  ⟨fun _ _ => rfl, fun _ _ hv => List.mem_singleton.1 hv, fun _ => rfl, fun _ => rfl,
    fun _ _ _ _ _ h => runFrom_some_ne_none h⟩

theorem creates?_of_target? {i : Instruction} (h : i.target? = none) : i.creates? = none := by
  cases i <;> first | rfl | cases h

/-- There is another name to be given out. -/
theorem exists_isGenerated_ne (name : String) : ∃ made, IsGenerated made ∧ name ≠ made := by
  by_cases h : name = graphPrefix ++ Text.decimal 0
  · refine ⟨graphPrefix ++ Text.decimal 1, ⟨1, .inl rfl⟩, ?_⟩
    rw [h]
    decide
  · exact ⟨_, ⟨0, .inl rfl⟩, h⟩

/-- A graph is answered for in the store as it is on a stage. -/
theorem answer_agrees (hb : b.IsDatabase view False) {read : Graph → Instruction} (hread : IsReading read)
    {g : Graph} (hg : IsOwn g.name) (s : σ) :
    match answer (view s).baseRelations (Meaning.of (view s) (.graph g)) read with
    | some a => ∃ t, ((read g).execute b).runFrom s = (.ok (some a), t)
    | none => ∃ e t, ((read g).execute b).runFrom s = (.error e, t) := by
  obtain ⟨made, hmade, hne⟩ := exists_isGenerated_ne g.name
  let role := graphPrefix ++ Text.decimal 0
  let placed := placesOf (some (.graph g)) []
  let cast := castOf role made placed
  have hrole : IsNumbered 0 role := .inl rfl
  have hfair : cast.IsFair role made := castOf_isFair hrole hmade (placesOf_nodup _ _) fun v i hv _ => by
    obtain hv | hv := mem_placesOf hv
    · cases hv; exact ⟨hg, hne⟩
    · cases hv
  have hplace : (.graph g, 0) ∈ placed := List.mem_append_left _ List.mem_cons_self
  have hhandle : ((Meaning.of (view s) (.graph g)).standIn 0).IsHandle := .inl rfl
  have hmoves := moves_operand hrole hfair hplace hhandle
  have hsame : (⟨stageName (g.name == Graph.base.name) 0⟩ : Graph).under cast.rename = g :=
    congrArg Graph.mk (hfair.rename_role (casting_mem hplace (.inl rfl)))
  have hfollows := Instruction.execute_follows (hfair.tracks hb) hfair.keepsKnown (H := cast.rename)
    (i := read ⟨stageName (g.name == Graph.base.name) 0⟩) (hread.native _)
    (creates?_of_target? (hread.target _))
    (fun v hv _ => by rw [hread.uses _ v hv]; exact hmoves)
    (fun name hname => by rw [hread.target] at hname; cases hname)
  rw [hread.under, hsame] at hfollows
  have hstaged : Staged cast.tables.rename (Cast.onStage cast) (known cast role)
      (stage (view s).baseRelations [(Meaning.of (view s) (.graph g), 0)]) (view s) :=
    staged_stage hrole hfair
  have hstandIn : (Meaning.of (view s) (.graph g)).standIn 0 = .graph ⟨stageName (g.name == Graph.base.name) 0⟩ := rfl
  rw [answer, hstandIn]
  dsimp only
  rcases hfollows _ s hstaged with ⟨e, e', db', t, hdb, ht⟩ | ⟨found, db', t, hdb, ht, -⟩
  · rw [hdb]
    exact ⟨e', t, ht⟩
  · rw [hdb]
    obtain ⟨a, rfl⟩ := Option.ne_none_iff_exists'.1 (hread.answers b g s t found ht)
    exact ⟨t, ht⟩

end Provenance
