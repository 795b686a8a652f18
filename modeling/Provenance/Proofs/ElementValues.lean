import Provenance.Proofs.SetOperations

/-!
# Values of elements

Metadata is read as a map: to each id and name it gives at most one value. Setting a name gives each id of a
graph one value, however often the graph lists it. Of two maps the right one overrides the left one: an
anti-join leaves the pairs of the left map that the right one says nothing of, and the right map goes behind
them. On maps this is associative, and a map that is overridden by itself stays as it is.
-/

namespace Provenance

/-! ## Maps that override others -/

namespace OrderedMap

variable {α β : Type} [DecidableEq α]

theorem find?_append (m m' : List (α × β)) (key : α) : find? (m ++ m') key = (find? m key).or (find? m' key) := by
  simp [find?, List.find?_append, Option.map_or]

/-- The pairs whose keys the other list does not have. -/
def unmatched (m m' : List (α × β)) : List (α × β) := m.filter fun p => p.1 ∉ m'.map Prod.fst

/-- The left pairs that the right ones do not replace, and the right ones. -/
def override (m m' : List (α × β)) : List (α × β) := unmatched m m' ++ m'

variable {m m' : List (α × β)}

theorem mem_keys_unmatched {key : α} :
    key ∈ (unmatched m m').map Prod.fst ↔ key ∈ m.map Prod.fst ∧ key ∉ m'.map Prod.fst := by
  simp only [unmatched, List.mem_map, List.mem_filter, decide_eq_true_eq]
  constructor
  · rintro ⟨p, ⟨hp, hnew⟩, rfl⟩
    exact ⟨⟨p, hp, rfl⟩, hnew⟩
  · rintro ⟨⟨p, hp, rfl⟩, hnew⟩
    exact ⟨p, ⟨hp, hnew⟩, rfl⟩

theorem mem_keys_override {key : α} :
    key ∈ (override m m').map Prod.fst ↔ key ∈ m.map Prod.fst ∨ key ∈ m'.map Prod.fst := by
  rw [override, List.map_append, List.mem_append, mem_keys_unmatched]
  tauto

theorem find?_unmatched {key : α} (h : key ∉ m'.map Prod.fst) : find? (unmatched m m') key = find? m key := by
  induction m with
  | nil => rfl
  | cons p m ih =>
    rw [unmatched, List.filter_cons, ← unmatched]
    split
    · rw [find?_cons, find?_cons, ih]
    · next hp =>
      rw [ih, find?_cons, if_neg]
      rintro rfl
      simp [h] at hp

/-- The value on the right, or else that on the left. -/
theorem find?_override (m m' : List (α × β)) (key : α) :
    find? (override m m') key = (find? m' key).or (find? m key) := by
  rw [override, find?_append]
  by_cases hkey : key ∈ m'.map Prod.fst
  · have hnone : find? (unmatched m m') key = none :=
      find?_eq_none_iff.2 fun h => (mem_keys_unmatched.1 h).2 hkey
    obtain ⟨v, hv⟩ := Option.ne_none_iff_exists'.1 fun hn => find?_eq_none_iff.1 hn hkey
    rw [hnone, hv]
    rfl
  · rw [find?_unmatched hkey, find?_eq_none_iff.2 hkey, Option.or_none, Option.none_or]

theorem nodup_override (h : (m.map Prod.fst).Nodup) (h' : (m'.map Prod.fst).Nodup) :
    ((override m m').map Prod.fst).Nodup := by
  rw [override, List.map_append, List.nodup_append]
  refine ⟨h.sublist (List.filter_sublist.map _), h', fun key hkey key' hkey' heq => ?_⟩
  subst heq
  exact (mem_keys_unmatched.1 hkey).2 hkey'

theorem unmatched_unmatched (m m' m'' : List (α × β)) :
    unmatched (unmatched m m') m'' = unmatched m (override m' m'') := by
  rw [unmatched, unmatched, unmatched, List.filter_filter]
  refine List.filter_congr fun p _ => ?_
  simp only [mem_keys_override, not_or, Bool.decide_and]
  exact Bool.and_comm _ _

/-- Both nestings of an override are one list of pairs. -/
theorem override_assoc (m m' m'' : List (α × β)) :
    override (override m m') m'' = override m (override m' m'') := by
  have happend : unmatched (override m m') m'' = unmatched (unmatched m m') m'' ++ unmatched m' m'' :=
    List.filter_append _ _
  rw [override, happend, unmatched_unmatched, List.append_assoc]
  rfl

theorem override_self (m : List (α × β)) : override m m = m := by
  have hnone : unmatched m m = [] :=
    List.filter_eq_nil_iff.2 fun p hp => by simpa using ⟨p.2, hp⟩
  rw [override, hnone, List.nil_append]

end OrderedMap

namespace Algebra

open Store Database Traversal OrderedMap Action

/-! ## Tables of values -/

/-- Values under ids and names. -/
abbrev Values := List ((Int × String) × String)

/-- The row of a value. -/
def valueRow (p : (Int × String) × String) : Row := [.integer p.1.1, .text p.1.2, .text p.2]

theorem valueRow_injective : Function.Injective valueRow := by
  rintro ⟨⟨n, name⟩, value⟩ ⟨⟨n', name'⟩, value'⟩ h
  cases h
  rfl

/-- The table has just these values. -/
def HoldsValues (db : Database) (table : String) (vs : Values) : Prop :=
  (db.table? table).map (fun t => (t.columns, t.rows)) = some (metadataColumns, vs.map valueRow)

instance (db : Database) (table : String) (vs : Values) : Decidable (HoldsValues db table vs) :=
  inferInstanceAs (Decidable (_ = _))

/-- Metadata has these values on each side. -/
abbrev HoldsMetadata (db : Database) (m : Metadata) (vs : Side → Values) : Prop :=
  ∀ side, HoldsValues db (m.table side) (vs side)

section Rows

variable {db db' : Database} {table : String} {vs ws : Values}

theorem isLower_metadataColumns : ∀ name ∈ metadataColumns.map Column.name, IsLower name := by decide

theorem nodup_metadataColumns : (metadataColumns.map Column.name).Nodup := by decide

variable (p : (Int × String) × String) (source : String)

theorem find?_valueRow_id : Scope.find? [⟨source, metadataColumns, valueRow p⟩] (.plain "id")
    = some (.integer, .integer p.1.1) :=
  Scope.find?_cells (i := 0) isLower_metadataColumns nodup_metadataColumns rfl rfl source

theorem find?_valueRow_name : Scope.find? [⟨source, metadataColumns, valueRow p⟩] (.plain "name")
    = some (.text, .text p.1.2) :=
  Scope.find?_cells (i := 1) isLower_metadataColumns nodup_metadataColumns rfl rfl source

theorem find?_valueRow_value : Scope.find? [⟨source, metadataColumns, valueRow p⟩] (.plain "value")
    = some (.text, .text p.2) :=
  Scope.find?_cells (i := 2) isLower_metadataColumns nodup_metadataColumns rfl rfl source

/-- The columns of values. -/
abbrev valueTerms : List Term := ["id", "name", "value"].map fun n => .column (.plain n)

theorem value_valueTerms : valueTerms.map (Term.value [[⟨source, metadataColumns, valueRow p⟩]]) = valueRow p := by
  simp only [List.map_cons, List.map_nil, Term.value, List.head?_cons, Option.map_some, Option.getD_some,
    Scope.cell_of_find? (find?_valueRow_id p source), Scope.cell_of_find? (find?_valueRow_name p source),
    Scope.cell_of_find? (find?_valueRow_value p source)]
  rfl

namespace HoldsValues

variable (h : HoldsValues db table vs)
include h

theorem congr (hdb : db'.table? table = db.table? table) : HoldsValues db' table vs := by
  rwa [HoldsValues, hdb]

theorem eq (h' : HoldsValues db table ws) : vs = ws :=
  List.map_injective_iff.2 valueRow_injective (Prod.mk.inj (Option.some.inj (h.symm.trans h'))).2

theorem isSome : (db.table? table).isSome = true := by
  obtain ⟨t, ht, -⟩ := Option.map_eq_some_iff.1 h
  rw [ht]; rfl

omit source in
theorem outline (source : String) : db.outline table source = ⟨source, metadataColumns, []⟩ := by
  obtain ⟨t, ht, heq⟩ := Option.map_eq_some_iff.1 h
  obtain ⟨hcolumns, -⟩ := Prod.mk.inj heq
  rw [Database.outline, ht, ← hcolumns]

theorem visible : db.visible table source = vs.map fun p => ⟨source, metadataColumns, valueRow p⟩ := by
  obtain ⟨t, ht, heq⟩ := Option.map_eq_some_iff.1 h
  obtain ⟨hcolumns, hrows⟩ := Prod.mk.inj heq
  simp only [Database.visible, ht, hcolumns, hrows, List.map_map]
  rfl

/-- Values are stored as they are. -/
theorem insertFrom {q : Selection} (hq : q.rows db = .ok (ws.map valueRow)) :
    ∃ db', db.apply (.insertFrom table q) = .ok (db', none) ∧ HoldsValues db' table (vs ++ ws) ∧
      Keeps db db' table := by
  obtain ⟨t, ht, heq⟩ := Option.map_eq_some_iff.1 h
  obtain ⟨hcolumns, hrows⟩ := Prod.mk.inj heq
  have hlength : ∀ row ∈ ws.map valueRow, row.length = t.columns.length := fun row hrow => by
    obtain ⟨p, -, rfl⟩ := List.mem_map.1 hrow
    rw [hcolumns]
    rfl
  have hfit : ∀ row ∈ ws.map valueRow, t.fit row = row := fun row hrow => by
    obtain ⟨p, -, rfl⟩ := List.mem_map.1 hrow
    rw [Table.fit, hcolumns]
    rfl
  obtain ⟨db', happly, htable, hkeeps⟩ :=
    Database.insertFrom_fitting ht (by rw [hcolumns]; decide) hq hlength hfit
  refine ⟨db', happly, ?_, hkeeps⟩
  rw [HoldsValues, htable, Option.map_some, hcolumns, hrows, List.map_append]

/-- The values that meet some conditions. -/
theorem rows_values {rename : Option String} {conditions : List Condition} {keep : (Int × String) × String → Bool}
    (hfits : ∀ c ∈ conditions, c.Fits db [⟨rename.getD table, metadataColumns, []⟩])
    (hholds : ∀ p, conditions.all (·.holds db [⟨rename.getD table, metadataColumns, valueRow p⟩]) = keep p) :
    (Selection.join valueTerms [⟨table, rename, conditions⟩]).rows db = .ok ((vs.filter keep).map valueRow) := by
  have houtlines : (Selection.join valueTerms [⟨table, rename, conditions⟩]).outlines db
      = [⟨rename.getD table, metadataColumns, []⟩] := by
    simp [Selection.outlines, Selection.join, Source.name, h.outline]
  have hfinds : (Selection.join valueTerms [⟨table, rename, conditions⟩]).Finds db := by
    refine ⟨?_, ?_, fun _ href => absurd href List.not_mem_nil, fun _ href => absurd href List.not_mem_nil, valueTerms,
      rfl, ?_⟩
    · simpa [Selection.join] using h.isSome
    · rw [houtlines]
      simpa [Selection.join] using hfits
    · rw [houtlines]
      exact Selection.ReadsIntegers.knows_mentions (by decide)
  have hscopes : Selection.scopes db (Selection.join valueTerms [⟨table, rename, conditions⟩]).sources
      = (vs.filter keep).map fun p => [⟨rename.getD table, metadataColumns, valueRow p⟩] := by
    obtain ⟨t, ht, heq⟩ := Option.map_eq_some_iff.1 h
    obtain ⟨hcolumns, hrows⟩ := Prod.mk.inj heq
    rw [Selection.join, Selection.scopes_single ht, hrows, List.map_map, List.filter_map]
    have hscope : t.scope (rename.getD table) ∘ valueRow
        = fun p => [⟨rename.getD table, metadataColumns, valueRow p⟩] := funext fun p => by
      rw [Function.comp_apply, Table.scope, hcolumns]
    rw [Source.name, hscope]
    exact congrArg _ (List.filter_congr fun p _ => hholds p)
  exact Selection.rows_join hfinds hscopes fun p _ => value_valueTerms p _

theorem rows_allValues : (allValues table).rows db = .ok (vs.map valueRow) := by
  have hrows : (Selection.join valueTerms [⟨table, none, []⟩]).rows db
      = .ok ((vs.filter fun _ => true).map valueRow) := h.rows_values nofun fun _ => rfl
  rwa [List.filter_true] at hrows

end HoldsValues

/-- Metadata has only these values, in this order. -/
theorem HoldsMetadata.eq {m : Metadata} {V W : Side → Values} (h : HoldsMetadata db m V) (h' : HoldsMetadata db m W) :
    V = W := funext fun side => (h side).eq (h' side)

/-! ## Values that are not overridden -/

theorem agree?_texts {scope : Scope} {ref ref' : ColumnRef} {s s' : String}
    (hfind : scope.find? ref = some (.text, .text s)) (hfind' : scope.find? ref' = some (.text, .text s')) :
    scope.agree? ref ref' = some (decide (s = s')) := by
  have horder : ((Cell.text s).order (.text s') == .eq) = decide (s = s') := by
    rw [Bool.eq_iff_iff, beq_iff_eq, decide_eq_true_iff]
    exact Std.compare_eq_iff_eq
  simp only [Scope.agree?, Scope.affinity, Scope.cell, hfind, hfind', Option.map_some, Option.getD_some]
  exact congrArg some horder

/-- The columns in which a value and the one that overrides it agree. -/
abbrev keyColumns : List (ColumnRef × ColumnRef) := [(.of "l" "id", .of "r" "id"), (.of "l" "name", .of "r" "name")]

theorem agrees_values (p q : (Int × String) × String) :
    Scope.agrees [⟨"r", metadataColumns, valueRow q⟩, ⟨"l", metadataColumns, valueRow p⟩] keyColumns
      = decide (p.1 = q.1) := by
  have hleft : ∀ column, Scope.find? [⟨"r", metadataColumns, valueRow q⟩, ⟨"l", metadataColumns, valueRow p⟩]
      (.of "l" column) = Scope.find? [⟨"l", metadataColumns, valueRow p⟩] (.plain column) := fun column => by
    rw [Scope.find?_of_cons, sameName_eq_false_of_isLower (by decide) (by decide) (show "r" ≠ "l" by decide),
      if_neg Bool.false_ne_true, Scope.find?_of_cons, if_pos (sameName_self _)]
  have hright : ∀ column, Scope.find? [⟨"r", metadataColumns, valueRow q⟩, ⟨"l", metadataColumns, valueRow p⟩]
      (.of "r" column) = Scope.find? [⟨"r", metadataColumns, valueRow q⟩] (.plain column) := fun column => by
    rw [Scope.find?_of_cons, if_pos (sameName_self _)]
  have hid := Condition.agree?_integers ((hleft "id").trans (find?_valueRow_id p _))
    ((hright "id").trans (find?_valueRow_id q _))
  have hname := agree?_texts ((hleft "name").trans (find?_valueRow_name p _))
    ((hright "name").trans (find?_valueRow_name q _))
  simp only [Scope.agrees, List.all_cons, List.all_nil, Bool.and_true, hid, hname]
  simp [Prod.ext_iff]

theorem holds_unmatched {right : String} (h : HoldsValues db right ws) (p : (Int × String) × String) :
    (Condition.unmatched right "r" keyColumns).holds db [⟨"l", metadataColumns, valueRow p⟩]
      = decide (p.1 ∉ ws.map Prod.fst) := by
  have hall : (db.visible right "r").all (fun v => !Scope.agrees (v :: [⟨"l", metadataColumns, valueRow p⟩]) keyColumns)
      = decide (p.1 ∉ ws.map Prod.fst) := by
    rw [h.visible, List.all_map, Bool.eq_iff_iff, List.all_eq_true, decide_eq_true_iff, List.mem_map, not_exists]
    refine forall_congr' fun q => ?_
    rw [not_and, Function.comp_apply, agrees_values, Bool.not_eq_true', decide_eq_false_iff_not, eq_comm]
  rw [Condition.holds, Condition.holds?, hall]
  cases decide (p.1 ∉ ws.map Prod.fst) <;> rfl

/-- The values on the left that the right table does not replace. -/
theorem rows_unmatchedValues {left right : String} (hl : HoldsValues db left vs) (hr : HoldsValues db right ws) :
    (unmatchedValues left right).rows db = .ok ((OrderedMap.unmatched vs ws).map valueRow) := by
  show (Selection.join valueTerms [⟨left, some "l", [.unmatched right "r" keyColumns]⟩]).rows db
    = .ok ((OrderedMap.unmatched vs ws).map valueRow)
  refine hl.rows_values ?_ fun p => ?_
  · exact List.forall_mem_singleton.2 (fits_unmatchedValues (hr.outline "r") hr.isSome)
  · rw [List.all_cons, List.all_nil, Bool.and_true]
    exact (holds_unmatched hr p).trans (decide_eq_decide.2 Iff.rfl)

end Rows

/-! ## What is written -/

/-- Metadata has just these values; all tables but its own are as they were. -/
structure WrittenValues (base : Database) (target : Metadata) (vs : Side → Values) (db : Database) : Prop where
  holds : HoldsMetadata db target vs
  others : ∀ name, (∀ side, sameName (target.table side) name = false) → db.table? name = base.table? name

/-- The instruction runs through and writes these values to the target. -/
def WritesValues (db : Database) (i : Instruction) (target : Metadata) (vs : Side → Values) : Prop :=
  ∃ db', (i.execute Backend.memory).runFrom db = (.ok none, db') ∧ WrittenValues db target vs db'

/-- Tables of different sides have different names. -/
theorem sameName_table_of_ne {m m' : Metadata} {side side' : Side} (hne : side ≠ side') :
    sameName (m.table side) (m'.table side') = false := by
  cases side <;> cases side'
  case vertex.edge => exact sameName_vertexTable_edgeTable ⟨m.name⟩ ⟨m'.name⟩
  case edge.vertex => rw [sameName_comm]; exact sameName_vertexTable_edgeTable ⟨m'.name⟩ ⟨m.name⟩
  all_goals exact absurd rfl hne

section Writes

variable {base db : Database} {target lhs rhs : Metadata} {vs V W : Side → Values}

namespace WrittenValues

variable (h : WrittenValues base target vs db)
include h

/-- Values go behind those of one side. -/
theorem insertFrom {side : Side} {q : Selection} {ws : Values} (hq : q.rows db = .ok (ws.map valueRow)) :
    ∃ db', db.apply (.insertFrom (target.table side) q) = .ok (db', none) ∧
      WrittenValues base target (Function.update vs side (vs side ++ ws)) db' := by
  obtain ⟨db', happly, hholds, hkeeps⟩ := (h.holds side).insertFrom hq
  refine ⟨db', happly, fun side' => ?_, fun name hname => ?_⟩
  · obtain rfl | hne := eq_or_ne side' side
    · rwa [Function.update_self]
    · rw [Function.update_of_ne hne]
      exact (h.holds side').congr (hkeeps _ (sameName_table_of_ne hne.symm))
  · rw [hkeeps name (hname side), h.others name hname]

/-- Metadata under another name is as it was. -/
theorem reads {m : Metadata} (hm : HoldsMetadata base m V)
    (hapart : ∀ side, sameName (target.table side) (m.table side) = false) : HoldsMetadata db m V := fun side =>
  (hm side).congr (h.others _ fun side' => by
    obtain rfl | hne := eq_or_ne side' side
    · exact hapart side'
    · exact sameName_table_of_ne hne)

end WrittenValues

/-- New metadata is empty. -/
theorem createMetadata_writes (htarget : IsGenerated target.name) (db : Database) :
    WritesValues db (.createMetadata target) target fun _ => [] := by
  have hkeys : metadataColumns.filter Column.primaryKey = [] := rfl
  obtain ⟨output, hexecute⟩ := Backend.memory_execute_ok (Sustains.run_creation htarget hkeys db)
  have htable : ∀ name, (renewed db (target.table .vertex) (target.table .edge) metadataColumns).table? name
      = if sameName (target.table .vertex) name then some (newTable (target.table .vertex) metadataColumns)
        else if sameName (target.table .edge) name then some (newTable (target.table .edge) metadataColumns)
        else db.table? name := table?_renewed db _ _ _
  refine executes_silently rfl ⟨_, (runFrom_bind_ok hexecute _).trans rfl, fun side => ?_, fun name hname => ?_⟩
  · refine (congrArg _ (htable (target.table side))).trans ?_
    cases side with
    | vertex => rw [sameName_self]; rfl
    | edge => rw [sameName_table_of_ne (by decide), sameName_self]; rfl
  · refine (htable name).trans ?_
    rw [hname .vertex, hname .edge]
    rfl

/-- One side of the target gets what the right metadata overrides of the left one. -/
theorem leads_override (hlhs : HoldsMetadata base lhs V) (hrhs : HoldsMetadata base rhs W)
    (hl : ∀ side, sameName (target.table side) (lhs.table side) = false)
    (hr : ∀ side, sameName (target.table side) (rhs.table side) = false) (vs : Side → Values) (side : Side) :
    Leads (WrittenValues base target vs)
      [.insertFrom (target.table side) (unmatchedValues (lhs.table side) (rhs.table side)),
        .insertFrom (target.table side) (allValues (rhs.table side))]
      (WrittenValues base target (Function.update vs side (vs side ++ override (V side) (W side)))) := by
  refine .cons (fun db hdb => hdb.insertFrom
    (rows_unmatchedValues (hdb.reads hlhs hl side) (hdb.reads hrhs hr side))) (.single fun db hdb => ?_)
  obtain ⟨db', happly, hdb'⟩ := hdb.insertFrom (hdb.reads hrhs hr side).rows_allValues
  rw [Function.update_self, Function.update_idem, List.append_assoc] at hdb'
  exact ⟨db', happly, hdb'⟩

/-- On both sides, the left values as the right ones override them. -/
def sumValues (V W : Side → Values) : Side → Values := fun side => override (V side) (W side)

/-- An empty target gets what the right metadata overrides of the left one. -/
theorem overwriteMetadata_writes (htarget : HoldsMetadata db target fun _ => []) (hlhs : HoldsMetadata db lhs V)
    (hrhs : HoldsMetadata db rhs W) (hl : ∀ side, sameName (target.table side) (lhs.table side) = false)
    (hr : ∀ side, sameName (target.table side) (rhs.table side) = false) :
    WritesValues db (.overwriteMetadata target lhs rhs) target (sumValues V W) := by
  have hleads := (leads_override hlhs hrhs hl hr (fun _ => []) .vertex).append
    (leads_override hlhs hrhs hl hr _ .edge)
  obtain ⟨db', hrun, hwritten⟩ := exists_performed_batch hleads true ⟨htarget, fun _ _ => rfl⟩
  refine executes_silently rfl ⟨db', hrun, ?_⟩
  have hsides : Function.update (Function.update (fun _ => []) Side.vertex ([] ++ override (V .vertex) (W .vertex)))
      Side.edge ([] ++ override (V .edge) (W .edge)) = sumValues V W := by
    funext side
    cases side <;> simp [sumValues]
  rw [← hsides]
  exact hwritten

/-- Values under one name, for each of some ids. -/
def namedValues (ids : List Int) (name value : String) : Values := (ascending ids).map fun n => ((n, name), value)

/-- Values under one name on the covered sides, for each of some ids. -/
def coveredValues (coverage : Coverage) (ids : Side → List Int) (name value : String) : Side → Values := fun side =>
  if side ∈ coverage.sides then namedValues (ids side) name value else []

theorem nodup_keys_namedValues (ids : List Int) (name value : String) :
    ((namedValues ids name value).map Prod.fst).Nodup := by
  have hkeys : (namedValues ids name value).map Prod.fst = (ascending ids).map fun n => (n, name) := by
    rw [namedValues, List.map_map]
    rfl
  rw [hkeys]
  exact ((pairwise_ascending ids).imp ne_of_lt).map _ fun n n' hne heq => hne (Prod.mk.inj heq).1

/-- Each id of a covered side has just one row, and no other rows are there. -/
theorem count_coveredValues (coverage : Coverage) (ids : Side → List Int) (name value : String) (side : Side)
    (p : (Int × String) × String) : (coveredValues coverage ids name value side).count p
      = if side ∈ coverage.sides ∧ p.1.1 ∈ ids side ∧ p.1.2 = name ∧ p.2 = value then 1 else 0 := by
  rw [coveredValues]
  by_cases hside : side ∈ coverage.sides
  · have hmem : p ∈ namedValues (ids side) name value ↔ p.1.1 ∈ ids side ∧ p.1.2 = name ∧ p.2 = value := by
      obtain ⟨⟨n, name'⟩, value'⟩ := p
      simp [namedValues, mem_ascending, eq_comm]
    rw [if_pos hside, (List.Nodup.of_map _ (nodup_keys_namedValues (ids side) name value)).count]
    simp only [hmem, hside, true_and]
  · simp [hside]

theorem rows_namedIds {table : String} {ns : List Int} (h : db.HoldsIntegers table graphColumns (ns.map one))
    (name value : String) : (namedIds table name value).rows db = .ok ((namedValues ns name value).map valueRow) := by
  rw [namedValues, List.map_map]
  refine rows_groupedIds h (by simp [Term.mentions]) fun n rest => ?_
  have hid : Term.value (idScope table n :: rest) (.column (.plain "id")) = .integer n :=
    Scope.cell_of_find? (find?_id table n)
  rw [List.map_cons, hid]
  rfl

/-- Ids are not stored where values are. -/
theorem sameName_of_columns {table other : String} {vs : Values} {rows : List (List Int)}
    (h : HoldsValues db table vs) (hother : db.HoldsIntegers other graphColumns rows) :
    sameName table other = false := by
  rw [← Bool.not_eq_true]
  intro hsame
  obtain ⟨t, ht, hcolumns, -⟩ := hother
  rw [HoldsValues, table?_congr hsame, ht, Option.map_some, hcolumns] at h
  exact absurd (Prod.mk.inj (Option.some.inj h)).1 (by decide)

/-- Some sides get a value for each id of the graph, one after the other. -/
theorem setSides_writes {source : Graph} {ids : Side → List Int} (hsource : HoldsSides base source ids)
    (hapart : ∀ side side', sameName (target.table side) (source.table side') = false) (name value : String)
    {sides : List Side} (hdistinct : sides.Nodup) (h : WrittenValues base target vs db) :
    ∃ db', (sides.forM fun side => Backend.memory.performAll
        [.insertFrom (target.table side) (namedIds (source.table side) name value)]).runFrom db = (.ok (), db') ∧
      WrittenValues base target (fun side => if side ∈ sides then vs side ++ namedValues (ids side) name value
        else vs side) db' := by
  induction sides generalizing vs db with
  | nil => exact ⟨db, rfl, by simpa using h⟩
  | cons side sides ih =>
    obtain ⟨hnew, hdistinct⟩ := List.nodup_cons.1 hdistinct
    have hread : db.HoldsIntegers (source.table side) graphColumns ((ids side).map one) :=
      (holds_side hsource side).congr (h.others _ fun side' => hapart side' side)
    have hleads : Leads (· = db) [.insertFrom (target.table side) (namedIds (source.table side) name value)]
        (WrittenValues base target (Function.update vs side (vs side ++ namedValues (ids side) name value))) := by
      refine .single ?_
      rintro _ rfl
      exact h.insertFrom (rows_namedIds hread name value)
    obtain ⟨db₁, hfirst, h₁⟩ := exists_performed hleads rfl
    obtain ⟨db₂, hrest, h₂⟩ := ih hdistinct h₁
    refine ⟨db₂, ?_, ?_⟩
    · rw [forM_cons, runFrom_bind_ok hfirst, hrest]
    · have hsides : (fun side' => if side' ∈ side :: sides then vs side' ++ namedValues (ids side') name value
          else vs side') = fun side' => if side' ∈ sides then
            Function.update vs side (vs side ++ namedValues (ids side) name value) side'
              ++ namedValues (ids side') name value
          else Function.update vs side (vs side ++ namedValues (ids side) name value) side' := by
        funext side'
        obtain rfl | hne := eq_or_ne side' side
        · simp [hnew]
        · simp [hne]
      rw [hsides]
      exact h₂

/-- The covered sides of an empty target get a value for each id of the graph, the others get none. -/
theorem setMetadata_writes (htarget : HoldsMetadata db target fun _ => []) {source : Graph} {ids : Side → List Int}
    (hsource : HoldsSides db source ids) (coverage : Coverage) (name value : String) :
    WritesValues db (.setMetadata target coverage source name value) target (coveredValues coverage ids name value) :=
  executes_silently rfl (setSides_writes hsource
    (fun side side' => sameName_of_columns (htarget side) (holds_side hsource side')) name value
    (by cases coverage <;> decide) ⟨htarget, fun _ _ => rfl⟩)

end Writes

end Algebra

end Provenance
