import Provenance.Proofs.BaseRelations
import Provenance.Proofs.ConsistentStores
import Provenance.Proofs.Histories
import Provenance.Proofs.MetadataMaps

/-!
# Metadata of variables

Whatever a history records and queries, the metadata that variables name gives each id at most one value under
each name.
-/

namespace Provenance

open Query Store Database SymbolTable Workspace Action Algebra OrderedMap

/-- Handles have tables of their own, apart from that of the bindings. -/
theorem SymbolTable.Spares.sameHandles {db db' : Database} (h : Spares db db') (known : Value → Prop) :
    SameHandles known db db' := fun v _ _ side => h.others _ (by
  rw [sameName_comm]
  exact Graph.sameName_table_relation ⟨v.shown⟩ side)

namespace Session

/-- Handles that queries may use are those of variables. -/
theorem Known.isBound {db : Database} {t : SymbolTable} (ht : ∀ var, t.lookup? var = nameOf? db var) {v : Value}
    (hv : Known db v) (hhandle : v.IsHandle) : Resolution.IsBound t v := by
  cases hv with
  | word hn => obtain hhandle | hhandle := hhandle <;> cases hhandle
  | text s => obtain hhandle | hhandle := hhandle <;> cases hhandle
  | bound hname => exact ⟨_, _, (ht _).trans hname, rfl⟩

/-! ## One query -/

section Query

variable {db db' : Database} {t : SymbolTable} (h : Whole db) (hload : (load Backend.memory).runFrom db = (.ok t, db'))
  {ss : List Query.Statement} (hreadable : ∀ s ∈ ss, s.IsReadable) (hnative : ∀ s ∈ ss, s.isNative = false)

include h hload

theorem Whole.lookup?_loaded (var : String) : t.lookup? var = nameOf? db' var := by
  obtain ⟨-, hbindings⟩ := h.loaded Backend.isDatabase_memory hload
  rw [SymbolTable.lookup?, nameOf?, hbindings]
  rfl

omit h in
theorem spares_loaded : Spares db db' := by
  have hspares := SymbolTable.load_preserves Backend.isDatabase_memory (undisturbed_spares db) db (.refl db)
  rwa [hload] at hspares

theorem Whole.nameOf?_loaded (var : String) : nameOf? db' var = nameOf? db var := by
  obtain ⟨_, _, _, hrun, -, -, -, -, hnames, -⟩ := load_reliable Backend.isDatabase_memory h.intact h.counter
  rw [hload] at hrun
  cases hrun
  exact nameOf?_congr hnames var

theorem Whole.known_loaded {v : Value} (hv : Known db' v) : Known db v := hv.mono (h.nameOf?_loaded hload)

/-- Loading the symbol table leaves metadata as it is. -/
theorem Whole.maps_loaded (hmaps : Maps (Known db) db) : Maps (Known db') db' := fun m hm =>
  ((spares_loaded hload).sameHandles (Known db)).maps hmaps m (h.known_loaded hload hm)

/-- Resolution leaves the tables of handles. -/
theorem Whole.spares_resolve (ss : List Query.Statement) :
    Spares db' ((Resolution.resolve Backend.memory ss).runFrom ⟨t, db'⟩).2.store :=
  (Resolution.resolve_leaves Backend.isDatabase_memory admits_true
    (mirrors_load Backend.isDatabase_memory h.intact (fun _ _ _ => trivial) hload) ss).spares

section Resolved

variable {made : Nat} (hnumbered : Numbered made db) (hroom : made + Query.makings ss < 2 ^ 63) {program : Program}
  {w : Workspace Database} (hresolve : (Resolution.resolve Backend.memory ss).runFrom ⟨t, db'⟩ = (.ok program, w))
include hreadable hnative hnumbered hroom hresolve

theorem Whole.isResolved : program.IsResolved (Known db') := by
  have hb := Backend.isDatabase_memory
  obtain ⟨c, hc, hpos, hle, hnumbers⟩ := hnumbered
  have hcounter : storedCounter? db = some t.counter := (load_storedCounter? hb h.intact).2 t (by rw [hload])
  obtain rfl : c = t.counter := Option.some.inj (hc.symm.trans hcounter)
  have hlookup := h.lookup?_loaded hload
  refine Resolution.isResolved_of_draft (isWord_of_storedCounter? hc) (by omega) (fun var name hname => ?_)
    (fun v hv hhandle => hv.isBound hlookup hhandle) hresolve ?_
  · rw [hlookup, h.nameOf?_loaded hload] at hname
    obtain hbase | ⟨k, hk, hkc, hnumber⟩ := hnumbers name (names_of_nameOf? hname)
    · exact .inl hbase
    · refine .inr ⟨k.toNat, ?_, by rwa [Int.toNat_of_nonneg (by omega)]⟩
      dsimp only
      omega
  · obtain ⟨_, _, hrun, hready, -⟩ | ⟨_, _, hrun, -⟩ := h.resolve_ends hb hload hreadable hnative _ rfl
    · rw [hresolve] at hrun
      cases hrun
      exact hready
    · rw [hresolve] at hrun
      cases hrun

/-- What the program of a query leaves that succeeds. -/
theorem Whole.outcome (hmaps : Maps (Known db) db) {answers : List Answer} {u : Database}
    (hreplies : program.Replies Backend.memory w.store answers u) : Program.Outcome (Known db') program w.store u := by
  obtain ⟨hwhole, -⟩ := h.loaded Backend.isDatabase_memory hload
  have hspares := h.spares_resolve hload ss
  rw [hresolve] at hspares
  exact (h.isResolved hload hreadable hnative hnumbered hroom hresolve).outcome hwhole.proper
    (hspares.meets hwhole.meets) ((hspares.sameHandles _).maps (h.maps_loaded hload hmaps)) hreplies

end Resolved

/-- A query that was read leaves maps to its collection, unless it had too many rows to count. -/
theorem Whole.maps_resolveAndRun (hreadable : ∀ s ∈ ss, s.IsReadable) (hnative : ∀ s ∈ ss, s.isNative = false)
    {made : Nat} (hnumbered : Numbered made db) (hroom : made + Query.makings ss < 2 ^ 63)
    (hmaps : Maps (Known db) db)
    (hfine : ∀ e, ((Session.resolveAndRun Backend.memory ss).runFrom ⟨t, db'⟩).1 ≠ .error (.backend e))
    (hagrees : ((Session.resolveAndRun Backend.memory ss).runFrom ⟨t, db'⟩).2.Agrees id) :
    Maps (Known ((Session.resolveAndRun Backend.memory ss).runFrom ⟨t, db'⟩).2.store)
      ((Session.resolveAndRun Backend.memory ss).runFrom ⟨t, db'⟩).2.store := by
  have hb := Backend.isDatabase_memory
  have hspares := h.spares_resolve hload ss
  obtain ⟨program, w, hresolve, -, hbound⟩ | ⟨e, w, hresolve, -⟩ := h.resolve_ends hb hload hreadable hnative _ rfl
  · have hresult := runFrom_resolveAndRun_ok hresolve
    obtain ⟨answers, u, hreplies⟩ | hfails := Program.replies_or_fails Backend.memory program w.store
    · rw [runFrom_run_of_replies hreplies] at hresult
      rw [hresult] at hagrees ⊢
      have hmade : ∀ v, Known u v → Known db' v ∨ Program.Makes program v := by
        rintro v (hn | _ | hname)
        · exact .inl (.word hn)
        · exact .inl (.text _)
        · exact hbound _ _ (lookup?_of_agrees hagrees hname)
      exact fun m hm => (h.outcome hload hreadable hnative hnumbered hroom hresolve hmaps hreplies).maps m (hmade _ hm)
    · obtain ⟨e, u, hrun⟩ := runFrom_run_of_fails hfails
      rw [hrun] at hresult
      exact absurd (by rw [hresult]) (hfine e)
  · have hnames := Resolution.resolve_error_storedName? hb
      (mirrors_load hb h.intact (fun _ _ _ => trivial) hload) hresolve
    have hresult : (Session.resolveAndRun Backend.memory ss).runFrom ⟨t, db'⟩ = (.error e, w) :=
      runFrom_bind_error hresolve _
    rw [hresolve] at hspares
    rw [hresult]
    exact fun m hm => (hspares.sameHandles _).maps (h.maps_loaded hload hmaps) m (hm.mono (nameOf?_congr hnames))

end Query

/-! ## Histories -/

section Collected

variable {w : Workspace Database} (h : Whole w.store) (hagrees : w.Agrees id)
include h hagrees

/-- A collection leaves the metadata of variables if the bindings in memory are the stored ones. -/
theorem Whole.metadata_collected {m : Metadata} {vs : Side → Values} (hm : Known w.store (.metadata m))
    (hvs : HoldsMetadata w.store m vs) :
    HoldsMetadata ((Workspace.collected w.symbols w.store).foldl remove w.store) m vs := fun side =>
  (hvs side).congr (@Whole.table?_collected _ id w h hagrees _ _ (Schema.Of.hasMetadata hm side))

theorem Whole.maps_collected (hmaps : Maps (Known w.store) w.store) :
    Maps (Known ((Workspace.collected w.symbols w.store).foldl remove w.store))
      ((Workspace.collected w.symbols w.store).foldl remove w.store) := fun m hm => by
  have hm : Known w.store (.metadata m) := hm.mono (nameOf?_congr (storedName?_congr table?_relation_collected))
  obtain ⟨vs, hvs, hmap⟩ := hmaps m hm
  exact ⟨vs, h.metadata_collected hagrees hm hvs, hmap⟩

end Collected

variable {db : Database} (h : Whole db) (hmaps : Maps (Known db) db)
include h hmaps

theorem Whole.maps_executed {made : Nat} (hnumbered : Numbered made db) {query : String}
    (hplain : Query.IsPlain query) (hroom : made + Query.cost query < 2 ^ 63)
    (hfits : ∀ e, TooMany e → ((execute Backend.memory query).runFrom db).1 ≠ .error (.backend e)) :
    Maps (Known ((execute Backend.memory query).runFrom db).2) ((execute Backend.memory query).runFrom db).2 := by
  have hb := Backend.isDatabase_memory
  cases hparse : Query.parse query with
  | error e => simp only [execute, hparse, runFrom_throw]; exact hmaps
  | ok ss =>
    have hreadable := fun st hst => Query.isReadable_of_parse hparse st hst
    obtain ⟨t, db', -, hload, -⟩ := load_reliable hb h.intact h.counter
    obtain ⟨db'', hexecute, hview⟩ := runFrom_execute hb hparse hload rfl
    rw [Query.cost, hparse] at hroom
    rw [hexecute] at hfits ⊢
    obtain ⟨e, he, hmany⟩ | ⟨hfine, hwhole, hagrees⟩ := h.resolveAndRun hb hload hreadable (hplain ss hparse)
    · exact absurd he (hfits e hmany)
    · obtain rfl : db'' = _ := hview
      exact Whole.maps_collected hwhole hagrees
        (h.maps_resolveAndRun hload hreadable (hplain ss hparse) hnumbered hroom hmaps hfine hagrees)

theorem Whole.maps_collectedGarbage :
    Maps (Known ((collectGarbage Backend.memory).runFrom db).2) ((collectGarbage Backend.memory).runFrom db).2 := by
  have hb := Backend.isDatabase_memory
  obtain ⟨t, db', -, hload, -⟩ := load_reliable hb h.intact h.counter
  obtain ⟨hwhole, hbindings⟩ := h.loaded hb hload
  simp only [collectGarbage, withSymbols, runFrom_of, hload]
  obtain ⟨hfails, -⟩ | ⟨n, db'', hcollect, hview⟩ := collect_spec hb (w := ⟨t, db'⟩)
  · exact hfails.elim
  · rw [hcollect]
    obtain rfl : db'' = _ := hview
    exact Whole.maps_collected hwhole (fun var _ => hbindings var) (h.maps_loaded hload hmaps)

/-- What is recorded is not written to metadata. -/
theorem Whole.maps_recorded {db' : Database} {s : Store.Statement} (hs : IsRecording s) {answer : Option (List Row)}
    (happly : db.apply s = .ok (db', answer)) : Maps (Known db') db' := fun m hm => by
  have hm : Known db (.metadata m) :=
    hm.mono (nameOf?_congr (storedName?_congr (hs.isBaseInsertion.table?_relation happly)))
  obtain ⟨vs, hvs, hmap⟩ := hmaps m hm
  refine ⟨vs, fun side => (hvs side).congr (apply_other happly fun table htable => ?_), hmap⟩
  obtain ⟨name, _, _, rfl, hbase⟩ := hs.isBaseInsertion
  cases htable
  have hgenerated : IsGenerated m.name := by
    obtain hbase | hmade := h.proper _ hm
    · cases hbase
    · exact hmade.isGenerated
  rw [← Bool.not_eq_true]
  intro hsame
  obtain rfl := eq_of_sameName (Storage.isLower_of_mem_baseNames hbase)
    (Graph.isLower_table (g := ⟨m.name⟩) hgenerated.isLower side) hsame
  exact Storage.table_not_mem_baseNames hgenerated side hbase

omit h in
theorem maps_add {t : Table} (hrelation : sameName relation t.name = false) :
    Maps (Known (db.add t)) (db.add t) := fun m hm => by
  have hm : Known db (.metadata m) := hm.mono (nameOf?_congr (storedName?_congr (table?_relation_add hrelation)))
  obtain ⟨vs, hvs, hmap⟩ := hmaps m hm
  refine ⟨vs, fun side => (hvs side).congr ?_, hmap⟩
  obtain ⟨u, hu⟩ := Option.isSome_iff_exists.1 (hvs side).isSome
  rw [table?_add, hu, Option.some_or]

omit h hmaps

theorem maps_fresh : Maps (Known Storage.fresh) Storage.fresh := fun m hm => by
  generalize hv : Value.metadata m = v at hm
  cases hm with
  | word hn => cases hv
  | text s => cases hv
  | @bound var name hname =>
    obtain ⟨hvar, rfl⟩ := nameOf?_fresh hname
    obtain rfl : var = ⟨baseVariable⟩ := by cases var; exact congrArg _ hvar
    cases hv

/-- In every store of a history, the metadata of variables is of maps. -/
theorem History.maps {allowed : String → Prop} {made : Nat} (h : History allowed made db) (hmade : made < 2 ^ 63) :
    Maps (Known db) db := by
  have hholds := h.induction
    (P := fun made db => Whole db ∧ (made < 2 ^ 63 → Maps (Known db) db)) ⟨whole_fresh, fun _ => maps_fresh⟩
    ?recorded ?table ?collect ?query
  · exact hholds.2 hmade
  case recorded =>
    intro _ s hs db db' answer ⟨hwhole, hmaps⟩ happly
    exact ⟨hwhole.recorded hs happly, fun hmade => hwhole.maps_recorded (hmaps hmade) hs happly⟩
  case table =>
    intro _ db t ⟨hwhole, hmaps⟩ hnew hrelation _
    exact ⟨hwhole.add hnew hrelation, fun hmade => maps_add (hmaps hmade) hrelation⟩
  case collect =>
    intro _ db _ ⟨hwhole, hmaps⟩
    exact ⟨hwhole.collectedGarbage Backend.isDatabase_memory, fun hmade => hwhole.maps_collectedGarbage (hmaps hmade)⟩
  case query =>
    intro made db query h ⟨hwhole, hmaps⟩ hplain hfits
    refine ⟨(h.query hplain hfits).holds.1, fun hmade => ?_⟩
    exact hwhole.maps_executed (hmaps (by omega)) (h.holds.2 (by omega)) hplain hmade hfits

end Session

end Provenance
