import Provenance.Proofs.ElementValues
import Provenance.Proofs.PlannedPrograms

/-!
# Metadata that programs make

The store does not see to it that metadata gives an id at most one value under a name: the programs of queries
do. Each metadata is created and filled at once, with a value for each distinct id of a graph, or from other
metadata by an override, and no later instruction adds to it. So all that a program makes are maps, and each
instruction that fills metadata has the last word on it.
-/

namespace Provenance

open Query Store Database SymbolTable Action Algebra Traversal OrderedMap

/-! ## Maps -/

/-- On both sides, each id has at most one value under each name. -/
def IsMap (vs : Side → Values) : Prop := ∀ side, ((vs side).map Prod.fst).Nodup

theorem isMap_sumValues {V W : Side → Values} (hV : IsMap V) (hW : IsMap W) : IsMap (sumValues V W) := fun side =>
  nodup_override (hV side) (hW side)

theorem isMap_coveredValues (coverage : Coverage) (ids : Side → List Int) (name value : String) :
    IsMap (coveredValues coverage ids name value) := by
  intro side
  rw [coveredValues]
  split
  · exact nodup_keys_namedValues (ids side) name value
  · exact List.nodup_nil

/-- All of this metadata is of maps. -/
def Maps (known : Value → Prop) (db : Database) : Prop :=
  ∀ m, known (.metadata m) → ∃ vs, HoldsMetadata db m vs ∧ IsMap vs

/-- The tables of these handles are the same. -/
def SameHandles (known : Value → Prop) (db db' : Database) : Prop :=
  ∀ v, known v → v.IsHandle → ∀ side,
    db'.table? ((⟨v.shown⟩ : Graph).table side) = db.table? ((⟨v.shown⟩ : Graph).table side)

section SameHandles

variable {known : Value → Prop} {db db' db'' : Database} {m : Metadata} {g : Graph} {vs : Side → Values}
  {ids : Side → List Int}

theorem SameHandles.symm (h : SameHandles known db db') : SameHandles known db' db := fun v hv hhandle side =>
  (h v hv hhandle side).symm

theorem SameHandles.trans (h : SameHandles known db db') (h' : SameHandles known db' db'') :
    SameHandles known db db'' := fun v hv hhandle side => (h' v hv hhandle side).trans (h v hv hhandle side)

theorem SameHandles.mono {known' : Value → Prop} (h : SameHandles known db db') (hknown : ∀ v, known' v → known v) :
    SameHandles known' db db' := fun v hv => h v (hknown v hv)

theorem SameHandles.metadata (h : SameHandles known db db') (hm : known (.metadata m)) (hdb : HoldsMetadata db m vs) :
    HoldsMetadata db' m vs := fun side => (hdb side).congr (h _ hm (.inr rfl) side)

theorem SameHandles.graph (h : SameHandles known db db') (hg : known (.graph g)) (hdb : HoldsSides db g ids) :
    HoldsSides db' g ids :=
  ⟨hdb.vertices.congr (h _ hg (.inl rfl) .vertex), hdb.edges.congr (h _ hg (.inl rfl) .edge)⟩

theorem SameHandles.maps (h : SameHandles known db db') (hdb : Maps known db) : Maps known db' := fun m hm => by
  obtain ⟨vs, hvs, hmap⟩ := hdb m hm
  exact ⟨vs, h.metadata hm hvs, hmap⟩

end SameHandles

/-- The ids of a graph whose tables are there. -/
theorem Store.Database.Meets.exists_ids {known : Value → Prop} {db : Database} (h : db.Meets (Schema.Of known))
    {g : Graph} (hg : known (.graph g)) : ∃ ids, HoldsSides db g ids := by
  have hside : ∀ side, ∃ ns : List Int, db.HoldsIntegers (g.table side) graphColumns (ns.map one) := fun side => by
    obtain ⟨t, ht, -, hcolumns, htyped⟩ := h _ _ (Schema.Of.hasGraph hg side)
    obtain ⟨ns, -, hrows⟩ := htyped.exists_integers hcolumns rfl
    refine ⟨ns, t, ht, hcolumns, hrows.trans ?_⟩
    rw [List.map_map]
    rfl
  choose ids hids using hside
  exact ⟨ids, hids .vertex, hids .edge⟩

/-! ## What instructions have written -/

namespace Instruction

theorem isHandle_of_mem_sources (i : Instruction) : ∀ s ∈ i.sources, s.IsHandle := by
  cases i <;> simp [sources, Value.IsHandle, Value.kind]

/-- Metadata that the instruction fills has the values that the instruction means in this database. -/
def Settled (db : Database) : Instruction → Prop
  | overwriteMetadata target lhs rhs => ∃ V W, HoldsMetadata db lhs V ∧ HoldsMetadata db rhs W ∧
    HoldsMetadata db target (sumValues V W)
  | setMetadata target coverage source name value => ∃ ids, HoldsSides db source ids ∧
    HoldsMetadata db target (coveredValues coverage ids name value)
  | _ => True

variable {i : Instruction} {db db' : Database}

theorem Settled.of_written (h : ∀ m, i.written? ≠ some (.metadata m)) : i.Settled db := by
  cases i
  case setMetadata target _ _ _ _ => exact absurd rfl (h target)
  case overwriteMetadata target _ _ => exact absurd rfl (h target)
  all_goals trivial

theorem Settled.congr (h : i.Settled db) (hsame : SameHandles (· ∈ i.uses) db db') : i.Settled db' := by
  cases i
  case setMetadata target coverage source name value =>
    obtain ⟨ids, hids, htarget⟩ := h
    exact ⟨ids, hsame.graph (by simp [uses]) hids, hsame.metadata (by simp [uses]) htarget⟩
  case overwriteMetadata target lhs rhs =>
    obtain ⟨V, W, hV, hW, htarget⟩ := h
    exact ⟨V, W, hsame.metadata (by simp [uses]) hV, hsame.metadata (by simp [uses]) hW,
      hsame.metadata (by simp [uses]) htarget⟩
  all_goals trivial

end Instruction

/-- Handles with other names are apart from the target. -/
theorem sameName_table_of_shown {v : Value} {target : Metadata} (hv : v.IsProper) (hhandle : v.IsHandle)
    (htarget : IsGenerated target.name) (hne : v.shown ≠ target.name) (side side' : Side) :
    sameName (target.table side') ((⟨v.shown⟩ : Graph).table side) = false := by
  rw [← Bool.not_eq_true]
  intro hsame
  have heq := eq_of_sameName (Graph.isLower_table (g := ⟨target.name⟩) htarget.isLower side')
    (Graph.isLower_table (g := ⟨v.shown⟩) (hv.isOwn hhandle).isLower side) hsame
  exact hne (congrArg Graph.name (Graph.table_injective heq).1).symm

/-! ## Plans -/

section Plans

variable {offered : Value → Prop} {db db' : Database}

/-- What a plan carries out uses its own handle, and what is offered. -/
theorem Plan.Proper.uses {plan : Plan} (hplan : plan.Proper) {n : Int}
    (hready : Program.IsReady offered (plan.instructions n)) :
    ∀ i ∈ plan.instructions n, ∀ v ∈ i.uses, offered v ∨ v = plan.value n := by
  cases plan with
  | graph fill =>
    refine List.forall_mem_cons.2 ⟨nofun, fun i hi v hv => ?_⟩
    exact (hready.2.uses (fun j hj => made?_of_creates? (hplan _ j hj).2.2) i hi v hv).imp_right
      fun h => (Option.some.inj h).symm
  | metadata fill =>
    refine List.forall_mem_cons.2 ⟨nofun, List.forall_mem_singleton.2 fun v hv => ?_⟩
    exact (hready.2.1.uses v hv).imp_right fun h => (Option.some.inj h).symm

variable {plan : Plan} (hplan : plan.Proper) {n : Int} (hready : Program.IsReady offered (plan.instructions n))
  (hne : ∀ v, offered v → v.IsHandle → v.shown ≠ (plan.value n).shown)
include hplan hready hne

/-- All that a plan carries out writes to its handle. -/
theorem Plan.Proper.written : ∀ i ∈ plan.instructions n, i.written? = some (plan.value n) := by
  intro i hi
  have hshown : i.written?.map Value.shown = some (plan.value n).shown :=
    i.written?_map_shown.trans (hplan.targets n i hi).1
  obtain ⟨v, hv, hshown⟩ := Option.map_eq_some_iff.1 hshown
  cases hmade : i.made? with
  | some w =>
    have hmakes : Program.Makes (plan.instructions n) w := ⟨i, hi, hmade⟩
    have hcreations : (Program.creations (plan.instructions n)).Nodup := by
      rw [Program.creations_plan hplan]
      exact List.nodup_singleton _
    rw [Instruction.written?_of_made? hmade] at hv ⊢
    cases hv
    rw [hmakes.eq_of_shown hcreations (plan.makes_instructions n) hshown]
  | none =>
    have hhandle : v.IsHandle := by
      clear hshown hmade
      cases i <;> cases hv <;> simp [Value.IsHandle, Value.kind]
    obtain hoffered | rfl := hplan.uses hready i hi v
      ((Instruction.mem_uses_iff hhandle).2 (.inr ⟨hmade, hv⟩))
    · exact absurd hshown (hne v hoffered hhandle)
    · exact hv

end Plans

/-- New metadata that an instruction fills has these values, and all else is as it was. -/
theorem exists_replies_filled {db : Database} {target : Metadata} (htarget : IsGenerated target.name) {i : Instruction}
    {vs : Side → Values} (h : ∀ db₁, WrittenValues db target (fun _ => []) db₁ → WritesValues db₁ i target vs) :
    ∃ db', Program.Replies Backend.memory [.createMetadata target, i] db [] db' ∧ WrittenValues db target vs db' := by
  obtain ⟨db₁, hcreate, hempty⟩ := createMetadata_writes htarget db
  obtain ⟨db₂, hfill, hwritten⟩ := h db₁ hempty
  exact ⟨db₂, .cons hcreate (.cons hfill (.nil db₂)), hwritten.holds,
    fun name hname => (hwritten.others name hname).trans (hempty.others name hname)⟩

section Block

variable {offered : Value → Prop} {db : Database} (hproper : ∀ v, offered v → v.IsProper)
  (hmeets : db.Meets (Schema.Of offered)) (hmaps : Maps offered db) {target : Metadata}
  (htarget : IsGenerated target.name) (hne : ∀ v, offered v → v.IsHandle → v.shown ≠ target.name)
  {i : Instruction} (hmade : i.made? = none) (hwritten : i.written? = some (.metadata target))
  (hsources : ∀ s ∈ i.sources, offered s)
include hproper hmeets hmaps htarget hne hmade hwritten hsources

/-- Metadata that is created and filled from what is offered is a map, as the instruction means it. -/
theorem exists_filled : ∃ db' vs, Program.Replies Backend.memory [.createMetadata target, i] db [] db' ∧
    WrittenValues db target vs db' ∧ IsMap vs ∧ i.Settled db' := by
  have hsame : ∀ {vs db'}, WrittenValues db target vs db' → SameHandles offered db db' := fun h v hv hhandle side =>
    h.others _ (sameName_table_of_shown (hproper v hv) hhandle htarget (hne v hv hhandle) side)
  cases i <;> cases hwritten
  case createMetadata => cases hmade
  case setMetadata coverage source name value =>
    have hsource : offered (.graph source) := hsources _ (by simp [Instruction.sources])
    obtain ⟨ids, hids⟩ := hmeets.exists_ids hsource
    obtain ⟨db', hreplies, hdb'⟩ := exists_replies_filled htarget fun db₁ hempty =>
      setMetadata_writes hempty.holds ((hsame hempty).graph hsource hids) coverage name value
    exact ⟨db', _, hreplies, hdb', isMap_coveredValues coverage ids name value,
      ids, (hsame hdb').graph hsource hids, hdb'.holds⟩
  case overwriteMetadata lhs rhs =>
    have hlhs : offered (.metadata lhs) := hsources _ (by simp [Instruction.sources])
    have hrhs : offered (.metadata rhs) := hsources _ (by simp [Instruction.sources])
    have hapart : ∀ {m}, offered (.metadata m) → ∀ side, sameName (target.table side) (m.table side) = false :=
      fun hm side => sameName_table_of_shown (hproper _ hm) (.inr rfl) htarget (hne _ hm (.inr rfl)) side side
    obtain ⟨V, hV, hmapV⟩ := hmaps lhs hlhs
    obtain ⟨W, hW, hmapW⟩ := hmaps rhs hrhs
    obtain ⟨db', hreplies, hdb'⟩ := exists_replies_filled htarget fun db₁ hempty =>
      overwriteMetadata_writes hempty.holds ((hsame hempty).metadata hlhs hV) ((hsame hempty).metadata hrhs hW)
        (hapart hlhs) (hapart hrhs)
    exact ⟨db', _, hreplies, hdb', isMap_sumValues hmapV hmapW,
      V, W, (hsame hdb').metadata hlhs hV, (hsame hdb').metadata hrhs hW, hdb'.holds⟩

end Block

/-! ## Programs -/

namespace Program

/-- A ready program that succeeds leaves the tables of what it makes. -/
theorem IsReady.meets_of_replies {known : Value → Prop} {p : Program} (h : p.IsReady known)
    (hproper : ∀ v, known v → v.IsProper) {db db' : Database} (hdb : db.Meets (Schema.Of known))
    {answers : List Answer} (hreplies : p.Replies Backend.memory db answers db') :
    db'.Meets (Schema.Of fun v => known v ∨ Makes p v) := by
  have hrun := execute_of_replies hreplies none
  obtain ⟨_, x, hx, hmeets⟩ | ⟨e, x, hx, -⟩ :=
    execute_ends Backend.isDatabase_memory.serves hproper h ⟨db, none⟩ hdb
  · rw [hrun] at hx
    cases hx
    exact hmeets
  · rw [hrun] at hx
    cases hx

/-- What a resolved program leaves: what it makes has its tables, all metadata is of maps, what was known is as it
was, and metadata that was filled still has the values that it was filled with. -/
structure Outcome (known : Value → Prop) (p : Program) (db db' : Database) : Prop where
  meets : db'.Meets (Schema.Of fun v => known v ∨ Makes p v)
  maps : Maps (fun v => known v ∨ Makes p v) db'
  same : SameHandles known db db'
  settled : ∀ i ∈ p, i.Settled db'

variable {known : Value → Prop} {p : Program} {db db₁ db₂ : Database}

/-- What a ready program uses is known, or the program makes it. -/
theorem IsReady.uses_or_makes (h : p.IsReady known) : ∀ i ∈ p, ∀ v ∈ i.uses, known v ∨ Makes p v := by
  induction p generalizing known with
  | nil => simp
  | cons i p ih =>
    refine List.forall_mem_cons.2 ⟨fun v hv => .inl (h.1.uses v hv), fun j hj v hv => ?_⟩
    rw [makes_cons, ← or_assoc]
    exact ih h.2 j hj v hv

theorem IsReady.isProper (h : p.IsReady known) (hproper : ∀ v, known v → v.IsProper) {v : Value}
    (hv : known v ∨ Makes p v) : v.IsProper :=
  hv.elim (hproper v) fun hv => (h.isMade hv).isProper

/-- A further part that leaves alone what is known and made before. -/
theorem Outcome.append (h : Outcome known p db db₁) (hready : p.IsReady known) {q : Program}
    (hsame : SameHandles (fun v => known v ∨ Makes p v) db₁ db₂)
    (hmeets : db₂.Meets (Schema.Of fun v => known v ∨ Makes (p ++ q) v))
    (hmaps : ∀ m, Makes q (.metadata m) → ∃ vs, HoldsMetadata db₂ m vs ∧ IsMap vs)
    (hsettled : ∀ i ∈ q, i.Settled db₂) : Outcome known (p ++ q) db db₂ where
  meets := hmeets
  maps m hm := by
    obtain hm | hm : (known (.metadata m) ∨ Makes p (.metadata m)) ∨ Makes q (.metadata m) := by
      rw [or_assoc, ← makes_append]
      exact hm
    · exact hsame.maps h.maps m hm
    · exact hmaps m hm
  same := h.same.trans (hsame.mono fun v => .inl)
  settled i hi := (List.mem_append.1 hi).elim
    (fun hi => (h.settled i hi).congr (hsame.mono (hready.uses_or_makes i hi))) (hsettled i)

section Plan

variable (hproper : ∀ v, known v → v.IsProper) (h₁ : Outcome known p db db₁) {plan : Plan} (hplan : plan.Proper)
  {n : Int} (h : (p ++ plan.instructions n).IsResolved known)
include hproper h₁ hplan h

/-- A plan that makes metadata succeeds. -/
theorem exists_replies_metadata (hkind : ∃ m, plan.value n = .metadata m) :
    ∃ db₂, Replies Backend.memory (plan.instructions n) db₁ [] db₂ ∧
      (∀ m, Makes (plan.instructions n) (.metadata m) → ∃ vs, HoldsMetadata db₂ m vs ∧ IsMap vs) ∧
      ∀ i ∈ plan.instructions n, i.Settled db₂ := by
  have hready := isReady_append.1 h.ready
  have hoffered : ∀ v, known v ∨ Makes p v → v.IsProper := fun _ => hready.1.isProper hproper
  cases plan with
  | graph fill =>
    obtain ⟨m, hm⟩ := hkind
    cases hm
  | metadata fill =>
    have hlast : fill ⟨metadataPrefix ++ Text.decimal n⟩ ∈ (Plan.metadata fill).instructions n :=
      List.mem_cons_of_mem _ List.mem_cons_self
    have hmade := made?_of_creates? (hplan ⟨metadataPrefix ++ Text.decimal n⟩).2.2
    have hwritten := hplan.written hready.2 (fun v hv hhandle => h.ne_value hplan hv hhandle) _ hlast
    have hsources : ∀ s ∈ (fill ⟨metadataPrefix ++ Text.decimal n⟩).sources, known s ∨ Makes p s := fun s hs => by
      have hhandle := Instruction.isHandle_of_mem_sources _ s hs
      refine (hplan.uses hready.2 _ hlast s ((Instruction.mem_uses_iff hhandle).2 (.inl hs))).resolve_right ?_
      rintro rfl
      exact h.apart _ (List.mem_append_right p hlast) hmade _ hwritten _ hs rfl
    have htarget : IsGenerated (⟨metadataPrefix ++ Text.decimal n⟩ : Metadata).name := ⟨n, .inr rfl⟩
    obtain ⟨db₂, vs, hreplies, hvalues, hmap, hsettled⟩ := exists_filled hoffered h₁.meets h₁.maps htarget
      (fun v hv hhandle => h.ne_value hplan hv hhandle) hmade hwritten hsources
    refine ⟨db₂, hreplies, fun m hm => ?_, List.forall_mem_cons.2 ⟨trivial, List.forall_mem_singleton.2 hsettled⟩⟩
    obtain hm | hm := makes_cons.1 hm
    · cases hm
      exact ⟨vs, hvalues.holds, hmap⟩
    · obtain ⟨i, hi, hm⟩ := hm
      rw [List.mem_singleton.1 hi, hmade] at hm
      cases hm

/-- What a plan leaves, of which the instructions have succeeded. -/
theorem Outcome.withPlan {answers : List Answer}
    (hreplies : Replies Backend.memory (plan.instructions n) db₁ answers db₂) :
    Outcome known (p ++ plan.instructions n) db db₂ := by
  have hready := isReady_append.1 h.ready
  have hoffered : ∀ v, known v ∨ Makes p v → v.IsProper := fun _ => hready.1.isProper hproper
  have hne : ∀ v, known v ∨ Makes p v → v.IsHandle → v.shown ≠ (plan.value n).shown := fun v hv hhandle =>
    h.ne_value hplan hv hhandle
  have hsame : SameHandles (fun v => known v ∨ Makes p v) db₁ db₂ := fun v hv hhandle side =>
    (isPlanned_instructions hplan n).table?_of_replies Backend.isDatabase_memory hready.2.isNative hreplies
      ((hoffered v hv).isOwn hhandle) (fun hcreates => hne v hv hhandle ((creates_plan hplan).1 hcreates)) side
  have hmeets : db₂.Meets (Schema.Of fun v => known v ∨ Makes (p ++ plan.instructions n) v) := by
    simp only [makes_append, ← or_assoc]
    exact hready.2.meets_of_replies hoffered h₁.meets hreplies
  have hsilent := hreplies.silent fun i hi => by simp [(hplan.targets n i hi).1]
  subst hsilent
  cases hvalue : plan.value n with
  | metadata m =>
    obtain ⟨db₂', hreplies', hmaps, hsettled⟩ := exists_replies_metadata hproper h₁ hplan h ⟨m, hvalue⟩
    rw [Replies, hreplies] at hreplies'
    cases hreplies'
    exact h₁.append hready.1 hsame hmeets hmaps hsettled
  | _ =>
    have hwritten : ∀ i ∈ plan.instructions n, ∀ m, i.written? ≠ some (.metadata m) := fun i hi m hm => by
      rw [hplan.written hready.2 hne i hi, hvalue] at hm
      cases hm
    refine h₁.append hready.1 hsame hmeets (fun m hm => ?_) fun i hi => .of_written (hwritten i hi)
    obtain ⟨i, hi, hmade⟩ := hm
    exact absurd (Instruction.written?_of_made? hmade) (hwritten i hi m)

end Plan

/-- What an instruction leaves that only reads. -/
theorem Outcome.withReading (hproper : ∀ v, known v → v.IsProper) (h₁ : Outcome known p db db₁) {i : Instruction}
    (hi : i.target? = none) (h : (p ++ [i]).IsResolved known) {answers : List Answer}
    (hreplies : Replies Backend.memory [i] db₁ answers db₂) : Outcome known (p ++ [i]) db db₂ := by
  have hready := isReady_append.1 h.ready
  have hoffered : ∀ v, known v ∨ Makes p v → v.IsProper := fun _ => hready.1.isProper hproper
  have hcreates : ∀ name, ¬ Creates [i] name := fun name hcreates => by
    rw [← mem_creations, creations, List.filterMap_cons, creates?_of_target? hi] at hcreates
    cases hcreates
  have hwritten : ∀ m, i.written? ≠ some (.metadata m) := fun m hm => by
    rw [← i.written?_map_shown, hm] at hi
    cases hi
  refine h₁.append hready.1 (fun v hv hhandle side => ?_) ?_ (fun m hm => ?_)
    (List.forall_mem_singleton.2 (.of_written hwritten))
  · exact (isPlanned_reading hi).table?_of_replies Backend.isDatabase_memory hready.2.isNative hreplies
      ((hoffered v hv).isOwn hhandle) (hcreates _) side
  · simp only [makes_append, ← or_assoc]
    exact hready.2.meets_of_replies hoffered h₁.meets hreplies
  · obtain ⟨j, hj, hmade⟩ := hm
    rw [List.mem_singleton.1 hj] at hmade
    exact absurd (Instruction.written?_of_made? hmade) (hwritten m)

theorem Outcome.nil (hmeets : db.Meets (Schema.Of known)) (hmaps : Maps known db) : Outcome known [] db db where
  meets := by simpa using hmeets
  maps := by simpa using hmaps
  same _ _ _ _ := rfl
  settled := by simp

/-- What a resolved program leaves that succeeds. -/
theorem IsResolved.outcome (h : p.IsResolved known) (hproper : ∀ v, known v → v.IsProper)
    (hmeets : db.Meets (Schema.Of known)) (hmaps : Maps known db) {answers : List Answer} {db' : Database}
    (hreplies : p.Replies Backend.memory db answers db') : Outcome known p db db' := by
  refine h.induction (motive := fun p => ∀ answers db', p.Replies Backend.memory db answers db' →
    Outcome known p db db') ?nil ?plan ?reading answers db' hreplies
  case nil =>
    rintro answers db' hreplies
    cases hreplies
    exact .nil hmeets hmaps
  case plan =>
    intro p plan n hplan _ h ih answers db' hreplies
    obtain ⟨answers, db₁, later, hp, hlater⟩ := hreplies.of_append
    exact (ih _ _ hp).withPlan hproper hplan h hlater
  case reading =>
    intro p i hi _ h ih answers db' hreplies
    obtain ⟨answers, db₁, later, hp, hlater⟩ := hreplies.of_append
    exact (ih _ _ hp).withReading hproper hi h hlater

/-- A resolved program that only makes metadata succeeds. -/
theorem IsResolved.exists_replies (h : p.IsResolved known) (hproper : ∀ v, known v → v.IsProper)
    (hmeets : db.Meets (Schema.Of known)) (hmaps : Maps known db)
    (honly : ∀ i ∈ p, ∃ m, i.written? = some (.metadata m)) : ∃ db', p.Replies Backend.memory db [] db' := by
  refine h.induction (motive := fun p => (∀ i ∈ p, ∃ m, i.written? = some (.metadata m)) →
    ∃ db', p.Replies Backend.memory db [] db') (fun _ => ⟨db, .nil db⟩) ?plan ?reading honly
  case plan =>
    intro p plan n hplan hp h ih honly
    obtain ⟨m, hm⟩ : ∃ m, plan.value n = .metadata m := by
      obtain ⟨i, hi, hmade⟩ := plan.makes_instructions n
      obtain ⟨m, hm⟩ := honly i (List.mem_append_right p hi)
      rw [Instruction.written?_of_made? hmade] at hm
      exact ⟨m, Option.some.inj hm⟩
    obtain ⟨db₁, h₁⟩ := ih fun i hi => honly i (List.mem_append_left _ hi)
    obtain ⟨db₂, h₂, -⟩ := exists_replies_metadata hproper (hp.outcome hproper hmeets hmaps h₁) hplan h ⟨m, hm⟩
    exact ⟨db₂, h₁.append h₂⟩
  case reading =>
    intro p i hi _ _ _ honly
    obtain ⟨m, hm⟩ := honly i (by simp)
    rw [← i.written?_map_shown, hm] at hi
    cases hi

end Program

end Provenance
