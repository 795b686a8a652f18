import Provenance.Proofs.Rounds

/-!
# What a round reaches

Whatever cells a store holds, a round that leaves something in the frontier has reached a cell that was not
reached before. For a cell that is known to be none of some ids is not among them, and a cell that was stored in
a column of integers once is stored as it is from then on.
-/

namespace Provenance.Store

/-! ## Cells -/

theorem Binary64.order_self (x : Binary64) : x.order x = .eq := by
  cases x <;> simp [order]

namespace Cell

theorem order_self (c : Cell) : c.order c = .eq := by
  cases c with
  | real x => exact x.order_self
  | _ => simp [order]

/-- A cell that is known to be none of a list is not on the list. -/
theorem not_mem_of_among? {c : Cell} {list : List Cell} (h : c.among? list = some false) : c ∉ list := by
  intro hmem
  unfold among? at h
  split at h
  · next hempty =>
    rw [List.isEmpty_iff.1 hempty] at hmem
    cases hmem
  · split at h
    · cases h
    · next hnone =>
      split at h
      · cases h
      · next hknown =>
        cases hnull : c.isNull with
        | true => exact hknown (List.any_eq_true.2 ⟨c, hmem, by simp [equals?, hnull]⟩)
        | false => exact hnone (List.any_eq_true.2 ⟨c, hmem, by simp [equals?, hnull, order_self]⟩)

end Cell

namespace Affinity

theorem store_narrow (x : Binary64) : integer.store (narrow x) = narrow x := by
  have hnarrow : (∃ n, narrow x = .integer n) ∨ narrow x = .real x := by
    unfold narrow
    split
    · split
      · exact .inl ⟨_, rfl⟩
      · exact .inr rfl
    · exact .inr rfl
  obtain ⟨n, hn⟩ | hx := hnarrow
  · rw [hn]
    rfl
  · rw [hx]
    exact hx

/-- Texts denote integers and reals only. -/
theorem number?_cases {s : String} {c : Cell} (h : number? s = some c) :
    (∃ n, c = .integer n) ∨ ∃ x, c = .real x := by
  obtain ⟨d, -, rfl⟩ := Option.map_eq_some_iff.1 h
  dsimp only
  generalize (if d.negative = true then -(d.digits : Int) else d.digits) = n
  split
  · exact .inl ⟨n, rfl⟩
  · exact .inr ⟨_, rfl⟩

/-- What was stored in a column of integers is stored as it is. -/
theorem store_store (c : Cell) : integer.store (integer.store c) = integer.store c := by
  cases c with
  | real x => exact store_narrow x
  | text s =>
    have hstore : integer.store (.text s) = store.numericText s := rfl
    rw [hstore]
    cases h : number? s with
    | none =>
      have htext : store.numericText s = .text s := by rw [store.numericText, h]
      rw [htext, hstore, htext]
    | some c =>
      obtain ⟨n, rfl⟩ | ⟨x, rfl⟩ := number?_cases h
      · rw [store.numericText, h]
        rfl
      · rw [store.numericText, h]
        exact store_narrow x
  | _ => rfl

end Affinity

theorem Condition.not_mem_ids {db : Database} {scope : Scope} {ref : ColumnRef} {table : String}
    (h : (Condition.outside ref table).holds db scope = true) : scope.cell ref ∉ (db.ids table).2 := by
  have hmember : member? db scope ref table = some false := by
    rw [holds, holds?, beq_iff_eq, Option.map_eq_some_iff] at h
    obtain ⟨found, hfound, hnot⟩ := h
    rw [hfound, show found = false by simpa using hnot]
  unfold member? at hmember
  dsimp only at hmember
  split at hmember
  · exact Cell.not_mem_of_among? hmember
  · exact fun hmem => Cell.not_mem_of_among? hmember (List.mem_map_of_mem hmem)

/-! ## First cells -/

/-- The first cell of a row. -/
def Row.first (row : Row) : Cell := row.getD 0 .null

theorem Table.cell_first {t : Table} {columns : List Column} (ht : t.columns = .integer "id" :: columns)
    (source : String) (row : Row) : (t.scope source row).cell (.plain "id") = row.first := by
  rw [Table.scope, ht]
  cases row <;> rfl

theorem Table.first_fit {t : Table} {columns : List Column} (ht : t.columns = .integer "id" :: columns) (row : Row) :
    (t.fit row).first = Affinity.integer.store row.first := by
  rw [Table.fit, ht]
  cases row <;> rfl

namespace Selection

variable {db : Database} {q : Selection} {ref : ColumnRef} {terms : List Term} {row : Row}

/-- The first cell of an answered row is read off a joined row. -/
theorem first_of_mem_answer (hq : q.output = .terms (.column ref :: terms)) (h : row ∈ q.answer db) :
    ∃ scope ∈ scopes db q.sources, row.first = scope.cell ref := by
  rw [answer, hq] at h
  have hrow : row ∈ (cutOff q.limit (sortGroups q.orderBy (groups q.groupBy (scopes db q.sources)))).map fun group =>
      (Term.column ref :: terms).map (·.value group) := by
    split at h
    · exact mem_dedup h
    · exact h
  obtain ⟨group, hgroup, rfl⟩ := List.mem_map.1 hrow
  obtain ⟨hne, hmem⟩ := mem_groups (mem_sortGroups (mem_cutOff hgroup))
  obtain ⟨scope, rest, rfl⟩ := List.exists_cons_of_ne_nil hne
  exact ⟨scope, hmem scope List.mem_cons_self, rfl⟩

/-- Where rows are joined, a selection that leaves none out answers with one. -/
theorem exists_mem_answer (hq : q.output = .terms terms) (hdistinct : q.distinct = false) (horder : q.orderBy = [])
    (hlimit : q.limit = none) (h : scopes db q.sources ≠ []) : ∃ row, row ∈ q.answer db := by
  have hgroups : groups q.groupBy (scopes db q.sources) ≠ [] := by
    rw [groups]
    split
    · simpa using h
    · intro hnil
      have hflat := congrArg List.flatten hnil
      rw [List.flatten_splitBy, List.flatten_nil] at hflat
      exact h (List.perm_nil.1 ((List.mergeSort_perm _ _).symm.trans (.of_eq hflat)))
  obtain ⟨group, hgroup⟩ := List.exists_mem_of_ne_nil _ hgroups
  refine ⟨terms.map (·.value group), ?_⟩
  rw [answer, hq, hdistinct, horder, hlimit]
  exact List.mem_map_of_mem hgroup

end Selection

/-! ## Tables of ids -/

namespace Database

variable {db db' : Database} {table name : String}

/-- The table is there, and its first column is one of integers, the ids. -/
def HasIdsFirst (db : Database) (table : String) : Prop :=
  ∃ t columns, db.table? table = some t ∧ t.columns = .integer "id" :: columns

theorem HasIdsFirst.congr (h : db.HasIdsFirst table) (hdb : db.SameColumns db') : db'.HasIdsFirst table := by
  obtain ⟨t, columns, ht, hcolumns⟩ := h
  have hsame := hdb table
  rw [ht, Option.map_some, Option.map_eq_some_iff] at hsame
  obtain ⟨t', ht', hsame⟩ := hsame
  exact ⟨t', columns, ht', hsame.trans hcolumns⟩

theorem ids_eq {t : Table} {columns : List Column} (ht : db.table? table = some t)
    (hcolumns : t.columns = .integer "id" :: columns) : (db.ids table).2 = t.rows.map Row.first := by
  have hindex : t.index? "id" = some 0 := by
    rw [Table.index?, hcolumns, List.findIdx?_cons]
    rfl
  simp only [Database.ids, ht, Option.bind_some, Table.column?, hindex, hcolumns, Option.bind_eq_bind,
    List.getElem?_cons_zero, Option.pure_def]
  rfl

/-- Rows that are added to some table take no id away. -/
theorem ids_subset {t : Table} (ht : db.table? table = some t) (more : List Row) (name : String) :
    (db.ids name).2 ⊆ ((db.replace { t with rows := t.rows ++ more }).ids name).2 := by
  cases hids : (db.table? name).bind (·.column? "id") with
  | none => simp [Database.ids, hids]
  | some p =>
    obtain ⟨c, cells⟩ := p
    obtain ⟨u, hu, hc⟩ := Option.bind_eq_some_iff.1 hids
    obtain ⟨added, u', c', hu', hc'⟩ := HasIds.replace ⟨u, c, hu, hc⟩ ht more
    simp [Database.ids, hu, hc, hu', hc']

/-- The rows of a selection are added to a table, each brought to its columns, and nothing else changes. -/
theorem insertFrom_added {q : Selection} {answer : Option (List Row)}
    (h : db.apply (.insertFrom table q) = .ok (db', answer)) :
    ∃ t, db.table? table = some t ∧
      db'.table? table = some { t with rows := t.rows ++ (q.answer db).map t.fit } ∧ Keeps db db' table := by
  obtain ⟨t, rows, ht, hrows, rfl⟩ := insertFrom_ok (operation_ok h)
  rw [(Selection.isReadable_of_rows hrows).rows] at hrows
  cases hrows
  exact ⟨t, ht, table?_replace_rows ht _⟩

theorem clear_emptied {answer : Option (List Row)} (h : db.apply (.clear table) = .ok (db', answer)) :
    db'.HasNoRows table ∧ Keeps db db' table := by
  obtain ⟨t, rows, ht, -⟩ := delete_rewrites (operation_ok h)
  rw [apply_clear ht] at h
  cases h
  obtain ⟨htable, hkeeps⟩ := table?_replace_rows ht []
  refine ⟨?_, hkeeps⟩
  rw [HasNoRows, htable]
  rintro _ ⟨⟩
  rfl

/-- The ids of the table are as they were stored. -/
def HasStoredIds (db : Database) (table : String) : Prop :=
  ∀ t ∈ db.table? table, ∀ row ∈ t.rows, Affinity.integer.store row.first = row.first

theorem HasStoredIds.insertFrom (h : db.HasStoredIds name) (hids : db.HasIdsFirst name) {q : Selection}
    {answer : Option (List Row)} (happly : db.apply (.insertFrom table q) = .ok (db', answer)) :
    db'.HasStoredIds name := by
  obtain ⟨t, ht, ht', hkeeps⟩ := insertFrom_added happly
  cases hname : sameName table name with
  | false =>
    intro u hu
    rw [hkeeps name hname] at hu
    exact h u hu
  | true =>
    intro u hu row hrow
    rw [← table?_congr hname, ht'] at hu
    cases hu
    obtain ⟨v, columns, hv, hcolumns⟩ := hids
    rw [← table?_congr hname, ht] at hv
    cases hv
    obtain hrow | hrow := List.mem_append.1 hrow
    · exact h t (by rw [← table?_congr hname, ht]; rfl) row hrow
    · obtain ⟨row, -, rfl⟩ := List.mem_map.1 hrow
      rw [Table.first_fit hcolumns, Affinity.store_store]

end Database

end Provenance.Store

namespace Provenance

/-! ## Rounds -/

namespace Store.Database

variable {db db' : Database} {closed : Bool} {last answer : Option (List Row)} {s : Statement} {ss ss' : List Statement}

/-- Statements run through if the first of them do, and then the others from what these leave. -/
theorem runAll_append_ok (h : runAll closed db last (ss ++ ss') = (.ok answer, db')) :
    ∃ found db₁, runAll closed db last ss = (.ok found, db₁) ∧ runAll closed db₁ found ss' = (.ok answer, db') := by
  induction ss generalizing db last with
  | nil => exact ⟨last, db, rfl, h⟩
  | cons s ss ih =>
    rw [List.cons_append, runAll] at h
    rw [runAll]
    cases happly : db.apply s with
    | error c => rw [happly] at h; cases h
    | ok x =>
      rw [happly] at h
      exact ih h

theorem runAll_cons_inv (h : runAll closed db last (s :: ss) = (.ok answer, db')) :
    ∃ found db₁ last', db.apply s = .ok (db₁, found) ∧ runAll closed db₁ last' ss = (.ok answer, db') := by
  rw [runAll] at h
  split at h
  · next db₁ found happly => exact ⟨found, db₁, _, happly, h⟩
  · cases h

end Store.Database

namespace Traversal

open Store Database

/-- The tables of a sweep are tables of ids. -/
structure Tables.HaveIds (t : Tables) (db : Database) : Prop where
  frontier : db.HasIdsFirst t.frontier
  next : db.HasIdsFirst t.next
  reached : db.HasIdsFirst t.reached

theorem Tables.HaveIds.congr {t : Tables} {db db' : Database} (h : t.HaveIds db) (hdb : db.SameColumns db') :
    t.HaveIds db' := ⟨h.frontier.congr hdb, h.next.congr hdb, h.reached.congr hdb⟩

namespace Round

variable {t : Tables} (r : Round t) {db db' : Database} {closed : Bool} {last answer : Option (List Row)}

theorem cases_of_mem {s : Statement} (hs : s ∈ r.statements) :
    (∃ table q, s = .insertFrom table q) ∨ s = .clear t.next ∨ s = .clear t.frontier := by
  have hnotes : ∀ list : List (String × Selection), ∀ s ∈ notes list, ∃ table q, s = .insertFrom table q := by
    intro list s hs
    obtain ⟨note, -, rfl⟩ := List.mem_map.1 hs
    exact ⟨note.1, note.2, rfl⟩
  simp only [statements, finding, List.mem_append, List.mem_cons, List.not_mem_nil, or_false] at hs
  obtain (hs | rfl | hs) | rfl | rfl | rfl := hs
  · exact .inl (hnotes _ s hs)
  · exact .inr (.inl rfl)
  · exact .inl (hnotes _ s hs)
  · exact .inr (.inr rfl)
  · exact .inl ⟨_, _, rfl⟩
  · exact .inl ⟨_, _, rfl⟩

/-- What is reached stays so, also when a round fails. -/
theorem ids_subset (ht : t.AreApart) {ss : List Statement} (hss : ss ⊆ r.statements)
    {result : Except Fault (Option (List Row))} (h : runAll closed db last ss = (result, db')) :
    (db.ids t.reached).2 ⊆ (db'.ids t.reached).2 := by
  have hstep : ∀ s ∈ ss, ∀ (db₁ db₂ : Database) (found : Option (List Row)),
      (db.ids t.reached).2 ⊆ (db₁.ids t.reached).2 → db₁.apply s = .ok (db₂, found) →
        (db.ids t.reached).2 ⊆ (db₂.ids t.reached).2 := by
    intro s hs db₁ db₂ found hdb happly
    obtain ⟨table, q, rfl⟩ | rfl | rfl := r.cases_of_mem (hss hs)
    · obtain ⟨u, rows, hu, -, rfl⟩ := insertFrom_ok (operation_ok happly)
      exact List.Subset.trans hdb (Database.ids_subset hu _ _)
    · rwa [ids_congr ((clear_emptied happly).2 _ ht.next_reached)]
    · rwa [ids_congr ((clear_emptied happly).2 _ ht.frontier_reached)]
  have hkept := runAll_preserves hstep closed last (List.Subset.refl _)
  rwa [h] at hkept

theorem hasStoredIds_notes {table : String} {list : List (String × Selection)} (hids : db.HasIdsFirst table)
    (hstored : db.HasStoredIds table) (h : runAll closed db last (notes list) = (.ok answer, db')) :
    db'.HasStoredIds table := by
  have hstep : ∀ s ∈ notes list, ∀ (db db' : Database) (found : Option (List Row)),
      db.HasIdsFirst table ∧ db.HasStoredIds table → db.apply s = .ok (db', found) →
        db'.HasIdsFirst table ∧ db'.HasStoredIds table := by
    intro s hs db db' found hdb happly
    obtain ⟨note, -, rfl⟩ := List.mem_map.1 hs
    obtain ⟨_, -, hrewrites⟩ := (Statement.IsRefill.insertFrom note.1 note.2).rewrites happly
    exact ⟨hdb.1.congr hrewrites.sameColumns, hdb.2.insertFrom hdb.1 happly⟩
  have hkept := runAll_preserves hstep closed last ⟨hids, hstored⟩
  rw [h] at hkept
  exact hkept.2

/-- What is found is as it was stored. -/
theorem hasStoredIds_finding (hids : t.HaveIds db) (h : runAll closed db last r.finding = (.ok answer, db')) :
    db'.HasStoredIds t.next := by
  obtain ⟨_, db₁, hbefore, h⟩ := runAll_append_ok h
  obtain ⟨_, db₂, _, hclear, h⟩ := runAll_cons_inv h
  have hcolumns := Statement.sameColumns_of_runAll (isRefill_notes r.before) hbefore
  have hids : db₂.HasIdsFirst t.next :=
    hids.next.congr (hcolumns.trans (delete_rewrites (operation_ok hclear)).sameColumns)
  have hstored : db₂.HasStoredIds t.next := fun u hu row hrow => by
    rw [(clear_emptied hclear).1 u hu] at hrow
    cases hrow
  exact hasStoredIds_notes hids hstored h

/-- From the vertices one edge further that are not reached the frontier is filled. -/
theorem first_of_mem_fresh (hids : t.HaveIds db) (hstored : db.HasStoredIds t.next) {row : Row}
    (hrow : row ∈ r.fresh.answer db) :
    row.first ∉ (db.ids t.reached).2 ∧ Affinity.integer.store row.first = row.first := by
  obtain ⟨u, columns, hu, hcolumns⟩ := hids.next
  obtain ⟨scope, hscope, hfirst⟩ : ∃ scope ∈ Selection.scopes db r.fresh.sources, row.first = scope.cell (.plain "id") :=
    Selection.first_of_mem_answer rfl hrow
  rw [show r.fresh.sources = [⟨t.next, none, [.outside (.plain "id") t.reached]⟩] from rfl,
    Selection.scopes_single hu] at hscope
  obtain ⟨hscope, hholds⟩ := List.mem_filter.1 hscope
  obtain ⟨found, hfound, rfl⟩ := List.mem_map.1 hscope
  have hnew := Condition.not_mem_ids (List.all_eq_true.1 hholds _ List.mem_cons_self)
  rw [Table.cell_first hcolumns] at hfirst hnew
  rw [hfirst]
  exact ⟨hnew, hstored u hu found hfound⟩

/-- The ids of a frontier that is not empty are added to what is reached. -/
theorem exists_mem_found (hids : t.HaveIds db) (hne : ¬ db.HasNoRows t.frontier) :
    ∃ row ∈ r.found.answer db, ∃ u ∈ db.table? t.frontier, ∃ found ∈ u.rows, row.first = found.first := by
  obtain ⟨u, columns, hu, hcolumns⟩ := hids.frontier
  have hrows : u.rows ≠ [] := fun hnil => hne fun v hv => by
    rw [hu] at hv
    cases hv
    exact hnil
  have hscopes : Selection.scopes db r.found.sources = u.rows.map (u.scope t.frontier) := by
    rw [show r.found.sources = [⟨t.frontier, none, []⟩] from rfl, Selection.scopes_single hu]
    exact List.filter_eq_self.2 fun _ _ => rfl
  obtain ⟨row, hrow⟩ : ∃ row, row ∈ r.found.answer db :=
    Selection.exists_mem_answer rfl rfl rfl rfl (by rw [hscopes]; simpa using hrows)
  obtain ⟨scope, hscope, hfirst⟩ : ∃ scope ∈ Selection.scopes db r.found.sources, row.first = scope.cell (.plain "id") :=
    Selection.first_of_mem_answer rfl hrow
  rw [hscopes] at hscope
  obtain ⟨found, hfound, rfl⟩ := List.mem_map.1 hscope
  rw [Table.cell_first hcolumns] at hfirst
  exact ⟨row, hrow, u, hu, found, hfound, hfirst⟩

/-- When it is filled, the frontier holds new cells only, and they are stored as they are. -/
theorem first_of_mem_frontier (hids : t.HaveIds db) (hstored : db.HasStoredIds t.next)
    (hempty : db.HasNoRows t.frontier) (h : db.apply (.insertFrom t.frontier r.fresh) = .ok (db', answer)) :
    ∀ u ∈ db'.table? t.frontier, ∀ row ∈ u.rows,
      row.first ∉ (db.ids t.reached).2 ∧ Affinity.integer.store row.first = row.first := by
  obtain ⟨u, hu, hu', -⟩ := insertFrom_added h
  obtain ⟨v, columns, hv, hcolumns⟩ := hids.frontier
  rw [hu] at hv
  cases hv
  intro w hw row hrow
  rw [hu'] at hw
  cases hw
  rw [hempty u hu] at hrow
  obtain ⟨added, hadded, rfl⟩ := List.mem_map.1 hrow
  obtain ⟨hnot, hsame⟩ := r.first_of_mem_fresh hids hstored hadded
  rw [Table.first_fit hcolumns, hsame]
  exact ⟨hnot, hsame⟩

/-- Some cell of a frontier that is not empty is reached then, if all its cells are stored as they are. -/
theorem exists_reached (ht : t.AreApart) (hids : t.HaveIds db)
    (hstored : ∀ u ∈ db.table? t.frontier, ∀ row ∈ u.rows, Affinity.integer.store row.first = row.first)
    (h : db.apply (.insertFrom t.reached r.found) = .ok (db', answer)) (hne : ¬ db'.HasNoRows t.frontier) :
    ∃ u ∈ db.table? t.frontier, ∃ row ∈ u.rows, row.first ∈ (db'.ids t.reached).2 := by
  obtain ⟨u, hu, hu', hkeeps⟩ := insertFrom_added h
  obtain ⟨v, columns, hv, hcolumns⟩ := hids.reached
  rw [hu] at hv
  cases hv
  rw [HasNoRows, hkeeps _ (by rw [sameName_comm]; exact ht.frontier_reached)] at hne
  obtain ⟨row, hrow, w, hw, found, hfound, hfirst⟩ := r.exists_mem_found hids hne
  refine ⟨w, hw, found, hfound, ?_⟩
  rw [ids_eq hu' hcolumns, List.map_append]
  refine List.mem_append_right _ (List.mem_map.2 ⟨u.fit row, List.mem_map_of_mem hrow, ?_⟩)
  rw [Table.first_fit hcolumns, hfirst, hstored w hw found hfound]

/-- A round that leaves something in the frontier has reached something that was not reached. -/
theorem exists_new (ht : t.AreApart) (hids : t.HaveIds db)
    (h : runAll closed db last r.statements = (.ok answer, db')) (hne : ¬ db'.HasNoRows t.frontier) :
    ∃ c ∈ (db'.ids t.reached).2, c ∉ (db.ids t.reached).2 := by
  obtain ⟨_, db₁, hfinding, h⟩ := runAll_append_ok h
  obtain ⟨_, db₂, _, hclear, h⟩ := runAll_cons_inv h
  obtain ⟨_, db₃, _, hfresh, h⟩ := runAll_cons_inv h
  obtain ⟨_, db₄, _, hfound, h⟩ := runAll_cons_inv h
  cases h
  obtain ⟨hempty, hkeeps⟩ := clear_emptied hclear
  have hids₁ := hids.congr
    (Statement.sameColumns_of_runAll (fun s hs => r.isRefill s (List.mem_append_left _ hs)) hfinding)
  have hids₂ := hids₁.congr (delete_rewrites (operation_ok hclear)).sameColumns
  have hids₃ := hids₂.congr ((Statement.IsRefill.insertFrom _ _).rewrites hfresh).choose_spec.2.sameColumns
  -- What was reached at first is reached when the frontier is filled.
  have hreached : (db.ids t.reached).2 ⊆ (db₂.ids t.reached).2 := by
    rw [ids_congr (hkeeps _ ht.frontier_reached)]
    exact r.ids_subset ht (List.subset_append_left r.finding _) hfinding
  have hstored : db₂.HasStoredIds t.next := by
    rw [HasStoredIds, hkeeps _ (by rw [sameName_comm]; exact ht.next_frontier)]
    exact r.hasStoredIds_finding hids hfinding
  have hnew := r.first_of_mem_frontier hids₂ hstored hempty hfresh
  obtain ⟨u, hu, row, hrow, hmem⟩ :=
    r.exists_reached ht hids₃ (fun u hu row hrow => (hnew u hu row hrow).2) hfound hne
  exact ⟨row.first, hmem, fun hold => (hnew u hu row hrow).1 (hreached hold)⟩

end Round

end Traversal

end Provenance
