import Provenance.Proofs.UnbrokenSessions

/-!
# Histories of a store

A history is made of documents, single vertices and edges, collections and queries, in any order,
from a new store on. Whatever is recorded, the base relations keep their columns and only get rows of
words and texts. So a store of a history is whole, and no query of the history breaks.
-/

namespace Provenance

open Store Database SymbolTable Workspace Action

/-! ## Recording -/

/-- A row that suits a table of the schema may be added. -/
theorem Store.Database.Meets.insert {S : Schema} {db db' : Database} {table : String}
    {columns : List Column} {names : List String} {row : Row} (hdb : db.Meets S)
    (htable : S table columns) (hnames : names ≠ [])
    (hrow : ∀ t : Table, t.columns = columns → Suits columns (spread t names row))
    (h : db.insert table names [row] = .ok db') : db'.Meets S := by
  obtain ⟨t, arranged, ht, harrange, rfl⟩ := insert_ok h
  obtain ⟨u, hu, -, rfl, htyped⟩ := hdb _ _ htable
  obtain rfl : t = u := Option.some.inj (ht.symm.trans hu)
  have harranged : arranged = [spread t names row] := by
    rw [arrange, if_neg (by simp [hnames])] at harrange
    dsimp only at harrange
    split at harrange <;> cases harrange
    rfl
  rw [harranged]
  exact Statement.Works.meets_replace hdb ht (htyped.append fun r hr => by
    rw [List.mem_singleton.1 hr]; exact hrow t rfl)

/-- All ids of a document are words, as they are read. -/
def Document.HasWords (d : Document) : Prop :=
  (∀ v ∈ d.vertices, Text.isWord v.id = true) ∧
    ∀ e ∈ d.edges, Text.isWord e.id = true ∧ Text.isWord e.src = true ∧ Text.isWord e.dst = true

namespace Session

/-- A statement that records a vertex, an edge or an annotation, or adds one to the base graph. -/
inductive IsRecording : Statement → Prop
  | vertex (row : Row) : IsRecording (.insert Side.vertex.baseTable ["id", "md5"] [row])
  | edge {id src dst : Int} (hid : Text.isWord id = true) (hsrc : Text.isWord src = true)
    (hdst : Text.isWord dst = true) : IsRecording (.insert Side.edge.baseTable ["id", "src", "dst"]
      [[.integer id, .integer src, .integer dst]])
  | annotations (side : Side) {id : Int} (hid : Text.isWord id = true) (field value : String) :
    IsRecording (.insert side.annotationTable ["id", "field", "value"]
      [Storage.annotationRow id field value])
  | element (side : Side) {id : Int} (hid : Text.isWord id = true) :
    IsRecording (.insertIds (Graph.base.table side) [id])

theorem IsRecording.isBaseInsertion {s : Statement} (h : IsRecording s) : IsBaseInsertion s := by
  cases h with
  | vertex row => exact ⟨_, _, _, rfl, by decide⟩
  | edge => exact ⟨_, _, _, rfl, by decide⟩
  | annotations side => exact ⟨_, _, _, rfl, by cases side <;> decide⟩
  | element side => exact ⟨_, _, _, rfl, by cases side <;> decide⟩

theorem known_base (db : Database) : Known db (.graph .base) :=
  .bound (v := ⟨baseVariable⟩) rfl

/-- What is recorded leaves the relation of the bindings. -/
theorem IsBaseInsertion.table?_relation {s : Statement} (h : IsBaseInsertion s) {db db' : Database}
    {answer : Option (List Row)} (happly : db.apply s = .ok (db', answer)) :
    db'.table? relation = db.table? relation := by
  obtain ⟨table, columns, rows, rfl, htable⟩ := h
  refine Database.apply_other happly fun t ht => ?_
  cases ht
  rw [sameName_of_isLower ((show ∀ n ∈ Storage.baseTables.map Table.name, IsLower n by decide)
    table htable) (by decide), decide_eq_false_iff_not]
  rintro rfl
  exact absurd htable (by decide)

/-- Recording leaves a store whole. -/
theorem Whole.recorded {db db' : Database} (h : Whole db) {s : Statement} (hs : IsRecording s)
    {answer : Option (List Row)} (happly : db.apply s = .ok (db', answer)) : Whole db' := by
  have hrelation := hs.isBaseInsertion.table?_relation happly
  have hknown : ∀ v, Known db' v → Known db v := fun v hv =>
    hv.mono (nameOf?_congr (storedName?_congr hrelation))
  suffices db'.Meets (Schema.Of (Known db)) from
    ⟨h.intact.imp (fun hnone => by rw [hrelation, hnone]) (Exists.imp fun entries hk =>
      hk.congr hrelation), by rw [storedCounter?_congr hrelation]; exact h.counter,
      apply_distinct happly h.distinct, fun v hv => h.proper v (hknown v hv),
      fun name columns hname => this name columns (hname.mono hknown name columns)⟩
  cases hs with
  | vertex row =>
    intro name columns hname
    refine (h.meets name columns hname).congr (apply_other happly fun t ht => ?_)
    cases ht
    cases hname with
    | edge => rw [sameName_of_isLower (by decide) (by decide)]; decide
    | annotations side =>
      cases side <;> (rw [sameName_of_isLower (by decide) (by decide)]; decide)
    | @handle v _ hv hcolumns side =>
      have hown := (h.proper _ hv).isOwn (Value.isHandle_of_tableColumns? hcolumns)
      rw [sameName_of_isLower (by decide) (Graph.isLower_table (g := ⟨v.shown⟩) hown.isLower side),
        decide_eq_false_iff_not]
      intro heq
      exact absurd (heq ▸ show Side.vertex.baseTable ∈ Side.all.map Side.baseTable
        ++ Side.all.map Side.annotationTable ++ [relation] by decide) (table_not_mem_base _ side)
  | edge hid hsrc hdst =>
    refine h.meets.insert .edge (by decide) (fun t ht => ?_) (operation_ok happly)
    have hne : ∀ x ∈ ["id", "src"], sameName x "dst" = false := fun x hx => by
      rw [sameName_of_isLower (by revert x; decide) (by decide)]
      revert x
      decide
    rw [spread, ht]
    refine .cons (fun _ => ⟨_, rfl, hid⟩) (.cons (fun _ => ⟨_, rfl, hsrc⟩) (.cons (fun _ =>
      ⟨_, ?_, hdst⟩) .nil))
    simp [Column.required, Column.integer, hne]
  | annotations side hid field value =>
    refine h.meets.insert (.annotations side) (by decide) (fun t ht => ?_) (operation_ok happly)
    rw [spread, ht]
    refine .cons (fun _ => ⟨_, rfl, hid⟩) (.cons (fun h => by cases h) (.cons (fun h => by cases h) .nil))
  | element side hid =>
    refine h.meets.insert (.handle (known_base db) rfl side) (by decide) (fun t ht => ?_)
      (operation_ok happly)
    rw [spread, ht]
    exact .cons (fun _ => ⟨_, rfl, hid⟩) .nil

theorem isRecording_insertCommon (side : Side) {id : Int} (hid : Text.isWord id = true)
    (annotations : List (String × String)) :
    ∀ s ∈ Storage.insertCommon side id annotations, IsRecording s := fun s hs => by
  obtain hs | hs := List.mem_append.1 hs
  · obtain ⟨p, -, rfl⟩ := List.mem_map.1 hs
    exact .annotations side hid p.1 p.2
  · rw [List.mem_singleton.1 hs]
    exact .element side hid

section Recording

variable {I : Database → Prop}
  (h : ∀ s, IsRecording s → ∀ db db' answer, I db → db.apply s = .ok (db', answer) → I db')
include h

theorem putVertex_preserves {id : Int} (hid : Text.isWord id = true) (md5 : Option String)
    (annotations : List (String × String)) : Action.Preserves I (Storage.putVertex id md5 annotations) :=
  transaction_preserves (List.forall_mem_cons.2 ⟨h _ (.vertex _), fun s hs =>
    h s (isRecording_insertCommon .vertex hid annotations s hs)⟩)

theorem putEdge_preserves {id src dst : Int} (hid : Text.isWord id = true)
    (hsrc : Text.isWord src = true) (hdst : Text.isWord dst = true)
    (annotations : List (String × String)) : Action.Preserves I (Storage.putEdge id src dst annotations) :=
  transaction_preserves (List.forall_mem_cons.2 ⟨h _ (.edge hid hsrc hdst), fun s hs =>
    h s (isRecording_insertCommon .edge hid annotations s hs)⟩)

theorem load_preserves {d : Document} (hd : d.HasWords) : Action.Preserves I (Storage.load d) :=
  .bind (.forM fun v hv => .mapError _ (putVertex_preserves h (hd.1 v hv) v.md5 v.annotations)) fun _ =>
    .bind (.forM fun e he => .mapError _ (putEdge_preserves h (hd.2 e he).1 (hd.2 e he).2.1
      (hd.2 e he).2.2 e.annotations)) fun _ => .pure _

end Recording

/-! ## Steps of a history -/

/-- The stores that steps of any kind lead to from a new store, over which queries have made so many
things. A user may add tables of his own under allowed names. No query had more rows to count than a
word can tell: the store itself is too small for these. -/
inductive History (allowed : String → Prop) : Nat → Database → Prop
  | fresh : History allowed 0 Storage.fresh
  | load {n : Nat} {db : Database} (h : History allowed n db) {d : Document} (hd : d.HasWords) :
    History allowed n ((Storage.load d).runFrom db).2
  | putVertex {n : Nat} {db : Database} (h : History allowed n db) {id : Int} (hid : Text.isWord id = true)
    (md5 : Option String) (annotations : List (String × String)) :
    History allowed n ((Storage.putVertex id md5 annotations).runFrom db).2
  | putEdge {n : Nat} {db : Database} (h : History allowed n db) {id src dst : Int}
    (hid : Text.isWord id = true) (hsrc : Text.isWord src = true) (hdst : Text.isWord dst = true)
    (annotations : List (String × String)) :
    History allowed n ((Storage.putEdge id src dst annotations).runFrom db).2
  | table {n : Nat} {db : Database} (h : History allowed n db) {t : Table} (hnew : db.table? t.name = none)
    (hrelation : sameName relation t.name = false) (hallowed : allowed t.name) :
    History allowed n (db.add t)
  | collect {n : Nat} {db : Database} (h : History allowed n db) :
    History allowed n ((collectGarbage Backend.memory).runFrom db).2
  | query {n : Nat} {db : Database} (h : History allowed n db) {query : String}
    (hplain : Query.IsPlain query) (hfits : ∀ e, TooMany e →
      ((execute Backend.memory query).runFrom db).1 ≠ .error (.backend e)) :
    History allowed (n + Query.cost query) ((execute Backend.memory query).runFrom db).2

/-- What holds of a store after a history if it is so for each kind of step. -/
theorem History.induction {allowed : String → Prop} {P : Nat → Database → Prop} (fresh : P 0 Storage.fresh)
    (recorded : ∀ n s, IsRecording s → ∀ db db' answer, P n db → db.apply s = .ok (db', answer) →
      P n db')
    (table : ∀ n db t, P n db → db.table? t.name = none → sameName relation t.name = false →
      allowed t.name → P n (db.add t))
    (collect : ∀ n db, History allowed n db → P n db →
      P n ((collectGarbage Backend.memory).runFrom db).2)
    (query : ∀ n db query, History allowed n db → P n db → Query.IsPlain query → (∀ e, TooMany e →
      ((execute Backend.memory query).runFrom db).1 ≠ .error (.backend e)) →
      P (n + Query.cost query) ((execute Backend.memory query).runFrom db).2)
    {n : Nat} {db : Database} (h : History allowed n db) : P n db := by
  induction h with
  | fresh => exact fresh
  | load _ hd ih => exact load_preserves (recorded _) hd _ ih
  | putVertex _ hid md5 annotations ih => exact putVertex_preserves (recorded _) hid md5 annotations _ ih
  | putEdge _ hid hsrc hdst annotations ih =>
    exact putEdge_preserves (recorded _) hid hsrc hdst annotations _ ih
  | table _ hnew hrelation hallowed ih => exact table _ _ _ ih hnew hrelation hallowed
  | collect h ih => exact collect _ _ h ih
  | query h hplain hfits ih => exact query _ _ _ h ih hplain hfits

/-! ## Whole stores -/

theorem storedName?_fresh (var : String) : storedName? Storage.fresh var = none := by
  simp [storedName?, show Storage.fresh.table? relation = none from rfl]

/-- In a new store, the base graph is all that variables name. -/
theorem nameOf?_fresh {var name : String} (h : nameOf? Storage.fresh var = some name) :
    var = baseVariable ∧ name = Graph.base.name := by
  rw [nameOf?, storedName?_fresh] at h
  split at h
  · next hvar => exact ⟨hvar, (Option.some.inj h).symm⟩
  · cases h

theorem whole_fresh : Whole Storage.fresh := by
  have hbound : ∀ v : Query.Variable, ∀ name, nameOf? Storage.fresh v.name = some name →
      Resolution.named v name = .graph .base := by
    rintro ⟨var⟩ name hname
    obtain ⟨rfl, rfl⟩ := nameOf?_fresh hname
    rfl
  refine ⟨steady_fresh.intact, rfl, Reachable.distinct .fresh, fun v hv => ?_,
    fun name columns hname => ?_⟩
  · cases hv with
    | word hn => exact hn
    | text s => trivial
    | bound hname => rw [hbound _ _ hname]; exact .inl rfl
  · cases hname with
    | edge => exact ⟨_, rfl, rfl, rfl, nofun⟩
    | annotations side => cases side <;> exact ⟨_, rfl, rfl, rfl, nofun⟩
    | handle hv hcolumns side =>
      cases hv with
      | word hn => cases hcolumns
      | text s => cases hcolumns
      | bound hname =>
        rw [hbound _ _ hname] at hcolumns ⊢
        cases hcolumns
        cases side <;> exact ⟨_, rfl, rfl, rfl, nofun⟩

theorem table?_relation_add {db : Database} {t : Table} (h : sameName relation t.name = false) :
    (db.add t).table? relation = db.table? relation := by
  rw [table?_add, sameName_comm, h]
  simp

theorem Whole.add {db : Database} (h : Whole db) {t : Table} (hnew : db.table? t.name = none)
    (hrelation : sameName relation t.name = false) : Whole (db.add t) := by
  have htable : ∀ {name}, (db.table? name).isSome = true → (db.add t).table? name = db.table? name := by
    intro name hname
    obtain ⟨u, hu⟩ := Option.isSome_iff_exists.1 hname
    rw [table?_add, hu, Option.some_or]
  have hsame : (db.add t).table? relation = db.table? relation := table?_relation_add hrelation
  have hknown : ∀ v, Known (db.add t) v → Known db v := fun v hv =>
    hv.mono (nameOf?_congr (storedName?_congr hsame))
  refine ⟨h.intact.imp (fun hnone => by rw [hsame, hnone]) fun ⟨entries, hk⟩ =>
    ⟨entries, hk.congr hsame⟩, by rw [storedCounter?_congr hsame]; exact h.counter, ?_,
    fun v hv => h.proper v (hknown v hv), fun name columns hname => ?_⟩
  · rw [Distinct, Database.add, List.map_append, List.pairwise_append]
    refine ⟨h.distinct, List.pairwise_singleton _ _, fun a ha b hb => ?_⟩
    obtain ⟨u, hu, rfl⟩ := List.mem_map.1 ha
    obtain rfl : b = t.name := by simpa using hb
    simpa using List.find?_eq_none.1 hnew u hu
  · have hhas := h.meets name columns (hname.mono hknown name columns)
    exact hhas.congr (htable hhas.isSome)

/-! ## Numbers -/

/-- The names that variables are stored with, apart from the base graph, have numbers up to the
counter, which comes up to what was made. -/
def Numbered (made : Nat) (db : Database) : Prop :=
  ∃ c : Int, storedCounter? db = some c ∧ 0 ≤ c ∧ c ≤ made ∧
    ∀ name, Names db name → name = Graph.base.name ∨ ∃ k : Int, 1 ≤ k ∧ k ≤ c ∧ IsNumbered k name

theorem Numbered.congr {made : Nat} {db db' : Database} (h : Numbered made db)
    (hcounter : storedCounter? db' = storedCounter? db)
    (hnames : ∀ var, storedName? db' var = storedName? db var) : Numbered made db' := by
  obtain ⟨c, hc, hpos, hle, hnumbered⟩ := h
  exact ⟨c, hcounter.trans hc, hpos, hle, fun name hname =>
    hnumbered name (hname.imp_right fun ⟨var, hvar⟩ => ⟨var, hnames var ▸ hvar⟩)⟩

theorem Numbered.of_relation {made : Nat} {db db' : Database} (h : Numbered made db)
    (hrelation : db'.table? relation = db.table? relation) : Numbered made db' :=
  h.congr (storedCounter?_congr hrelation) (storedName?_congr hrelation)

theorem numbered_fresh : Numbered 0 Storage.fresh :=
  ⟨0, rfl, le_refl _, le_refl _, fun name hname => .inl (hname.elim id fun ⟨var, hvar⟩ => by
    rw [storedName?_fresh] at hvar; cases hvar)⟩

/-- A collection at any time leaves the names and the counter. -/
theorem Numbered.collectedGarbage {made : Nat} {db : Database} (h : Numbered made db)
    (hwhole : Whole db) : Numbered made ((collectGarbage Backend.memory).runFrom db).2 := by
  obtain ⟨t, s, _, hload, -, -, -, -, hnames, hcounter⟩ :=
    load_reliable Backend.isDatabase_memory hwhole.intact hwhole.counter
  simp only [collectGarbage, withSymbols, runFrom_of, hload]
  exact (h.congr hcounter hnames).of_relation
    ((collect_confined Backend.isDatabase_memory ⟨t, s⟩).others relation fun hc => hc rfl)

/-- A query gives out the numbers after the counter. -/
theorem Numbered.executed {made : Nat} {db : Database} (h : Numbered made db) (hintact : Intact db)
    {query : String} (hplain : Query.IsPlain query) (hroom : made + Query.cost query < 2 ^ 63) :
    Numbered (made + Query.cost query) ((execute Backend.memory query).runFrom db).2 := by
  have hb := Backend.isDatabase_memory
  obtain ⟨c, hc, hpos, hle, hnumbered⟩ := h
  cases hw : beforeCollection? Backend.memory query db with
  | none =>
    obtain ⟨-, hnames, hcounter, -⟩ :=
      execute_of_beforeCollection?_none hb hintact hw
    exact Numbered.congr ⟨c, hc, hpos, by omega, hnumbered⟩ hcounter hnames
  | some w =>
    obtain ⟨k, c', hk, hc', hcounter, hnames⟩ := beforeCollection?_names hb hplain hintact
      hw ⟨by omega, fun c' hc' => by rw [id, hc] at hc'; cases hc'; omega⟩
    obtain rfl : c = c' := Option.some.inj (hc.symm.trans hc')
    obtain ⟨-, -, -, -, -, -, hafter⟩ := beforeCollection?_some hw
    rw [hafter]
    refine Numbered.of_relation ?_ ((collect_confined hb w).others relation fun hc => hc rfl)
    obtain hcounter | ⟨hcounter, hnone⟩ := hcounter
    · refine ⟨c + k, hcounter, by omega, by omega, fun name hname => ?_⟩
      obtain rfl | ⟨var, hvar⟩ := hname
      · exact .inl rfl
      · obtain hold | ⟨j, hj, hjk, hnumber⟩ := hnames var name hvar
        · obtain hbase | ⟨m, hm, hmc, hnumber⟩ := hnumbered name hold
          · exact .inl hbase
          · exact .inr ⟨m, hm, by omega, hnumber⟩
        · exact .inr ⟨c + j, by omega, by omega, hnumber⟩
    · exact ⟨0, hcounter, le_refl _, by omega, fun name hname => hname.imp_right fun ⟨var, hvar⟩ => by
        rw [hnone] at hvar; cases hvar⟩

/-! ## What holds throughout -/

variable {allowed : String → Prop} {made : Nat} {db : Database}

/-- The stores of a history are whole, and the numbers come up to what was made, if that can be
counted. -/
theorem History.holds (h : History allowed made db) :
    Whole db ∧ (made < 2 ^ 63 → Numbered made db) := by
  refine h.induction (P := fun made db => Whole db ∧ (made < 2 ^ 63 → Numbered made db))
    ⟨whole_fresh, fun _ => numbered_fresh⟩ ?recorded ?table ?collect ?query
  case recorded =>
    intro _ s hs db db' answer ⟨hwhole, hnumbered⟩ happly
    exact ⟨hwhole.recorded hs happly, fun hmade =>
      (hnumbered hmade).of_relation (hs.isBaseInsertion.table?_relation happly)⟩
  case table =>
    intro _ db t ⟨hwhole, hnumbered⟩ hnew hrelation _
    exact ⟨hwhole.add hnew hrelation, fun hmade =>
      (hnumbered hmade).of_relation (table?_relation_add hrelation)⟩
  case collect =>
    intro _ db _ ⟨hwhole, hnumbered⟩
    exact ⟨hwhole.collectedGarbage Backend.isDatabase_memory, fun hmade =>
      (hnumbered hmade).collectedGarbage hwhole⟩
  case query =>
    intro made db query _ ⟨hwhole, hnumbered⟩ hplain hfits
    obtain ⟨e, he, hmany⟩ | ⟨-, hafter⟩ :=
      hwhole.executed Backend.isDatabase_memory hplain
    · exact absurd he (hfits e hmany)
    · exact ⟨hafter, fun hmade => (hnumbered (by omega)).executed hwhole.intact hplain hmade⟩

/-! ## What variables are bound to -/

/-- The name has the prefix and a number. This comes from 1 up to the counter, if what was made can be
counted. -/
def IsCounted (made : Nat) (db : Database) (start name : String) : Prop :=
  ∃ n, name = start ++ Text.decimal n ∧
    (made < 2 ^ 63 → 1 ≤ n ∧ ∃ c, storedCounter? db = some c ∧ n ≤ c)

/-- The tables of both sides of the name are there, with these columns. -/
def HasColumns (db : Database) (name : String) (columns : List String) : Prop :=
  ∀ side, ∃ t, db.table? ((⟨name⟩ : Graph).table side) = some t ∧
    t.name = (⟨name⟩ : Graph).table side ∧ t.columns.map Column.name = columns

/-- What is known of the name that a variable has. -/
def IsBound (made : Nat) (db : Database) (v : Query.Variable) (name : String) : Prop :=
  match v.kind with
  | .metadata => IsCounted made db metadataPrefix name ∧ HasColumns db name ["id", "name", "value"]
  | _ => (name = Graph.base.name ∨ IsCounted made db graphPrefix name) ∧ HasColumns db name ["id"]

theorem History.hasColumns (h : History allowed made db) {v : Query.Variable}
    {name : String} (hname : nameOf? db v.name = some name) {columns : List Column}
    (hcolumns : (Resolution.named v name).tableColumns? = some columns) :
    HasColumns db name (columns.map Column.name) := fun side => by
  obtain ⟨t, ht, hlisted, rfl, -⟩ := h.holds.1.meets _ _ (.handle (.bound hname) hcolumns side)
  rw [Resolution.named_shown] at ht hlisted
  exact ⟨t, ht, hlisted, rfl⟩

/-- The number of a name with one is that which was given out. -/
theorem History.isCounted (h : History allowed made db) {var name start : String}
    (hname : nameOf? db var = some name) {n : Int} (hn : name = start ++ Text.decimal n)
    (hnumber : IsNumbered n name) : IsCounted made db start name := by
  refine ⟨n, hn, fun hmade => ?_⟩
  obtain ⟨c, hc, -, -, hnumbered⟩ := h.holds.2 hmade
  have hnames : Names db name := by
    rw [nameOf?] at hname
    split at hname
    · exact .inl (Option.some.inj hname).symm
    · exact .inr ⟨var, hname⟩
  obtain rfl | ⟨k, hk, hkc, hnumber'⟩ := hnumbered name hnames
  · exact (not_isNumbered_base n hnumber).elim
  · rw [hnumber.eq hnumber']
    exact ⟨hk, c, hc, hkc⟩

theorem History.isBound (h : History allowed made db) {v : Query.Variable}
    {name : String} (hname : nameOf? db v.name = some name) : IsBound made db v name := by
  have hproper := h.holds.1.proper _ (.bound hname)
  have hcolumns : ∀ {columns}, (Resolution.named v name).tableColumns? = some columns →
      HasColumns db name (columns.map Column.name) := h.hasColumns hname
  unfold IsBound
  unfold Resolution.named at hproper hcolumns
  split
  · next hkind =>
    rw [if_pos hkind] at hproper hcolumns
    obtain hbase | ⟨n, hn⟩ := hproper
    · cases hbase
    · exact ⟨h.isCounted hname hn (.inr hn), hcolumns rfl⟩
  · next hkind =>
    rw [if_neg hkind] at hproper hcolumns
    refine ⟨?_, hcolumns rfl⟩
    obtain hbase | ⟨n, hn⟩ := hproper
    · exact .inl (congrArg (fun v => v.shown) hbase)
    · exact .inr (h.isCounted hname hn (.inl hn))

/-- How a query that is read ends, and the workspace with which it comes to its collection. -/
def outcome? (query : String) (db : Database) :
    Option (Except QueryError Answer × Workspace Database) :=
  match Query.parse query, (SymbolTable.load Backend.memory).runFrom db with
  | .ok ss, (.ok t, db') => some ((resolveAndRun Backend.memory ss).runFrom ⟨t, db'⟩)
  | _, _ => none

theorem execute_of_outcome? {query : String} {db : Database} {result : Except QueryError Answer}
    {w : Workspace Database} (h : outcome? query db = some (result, w)) :
    (execute Backend.memory query).runFrom db
        = (result, (Workspace.collected w.symbols w.store).foldl remove w.store) ∧
      beforeCollection? Backend.memory query db = some w := by
  rw [outcome?] at h
  split at h
  · next ss t db' hparse hload =>
    have hrun := Option.some.inj h
    obtain ⟨s, hs, hview⟩ := runFrom_execute Backend.isDatabase_memory hparse hload hrun
    refine ⟨hs.trans (congrArg _ hview), ?_⟩
    simp only [beforeCollection?, hparse, hload, hrun]
  · cases h

/-- A query that succeeds has no more rows to count than a word can tell. -/
theorem fits_of_isOk {query : String} {db : Database}
    (h : ((execute Backend.memory query).runFrom db).1.isOk = true) (e : BackendError) (_ : TooMany e) :
    ((execute Backend.memory query).runFrom db).1 ≠ .error (.backend e) := fun he => by
  rw [he] at h
  cases h

/-- A query that was seen to succeed, and the name that a variable has then. -/
theorem named_of_outcome? {query var name : String} {db : Database}
    (h : (outcome? query db).map (fun x => (x.1.isOk, storedName? x.2.store var)) = some (true, some name))
    (hvar : var ≠ baseVariable) : ((execute Backend.memory query).runFrom db).1.isOk = true ∧
      nameOf? ((execute Backend.memory query).runFrom db).2 var = some name := by
  obtain ⟨⟨result, w⟩, houtcome, heq⟩ := Option.map_eq_some_iff.1 h
  obtain ⟨hresult, hstored⟩ := Prod.mk.inj heq
  obtain ⟨hexecute, hw⟩ := execute_of_outcome? houtcome
  refine ⟨by rw [hexecute]; exact hresult, ?_⟩
  rw [nameOf?, if_neg hvar, storedName?_execute_memory hw, hstored]

end Session

end Provenance
