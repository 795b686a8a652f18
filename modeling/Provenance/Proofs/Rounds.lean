import Provenance.Proofs.AlikeTables
import Provenance.Proofs.SweepRounds

/-!
# Rounds

What the rounds of all sweeps have in common. Vertices one edge further are found from the frontier, and may be
noted. Those that were not reached become the frontier, and are reached then. So a round that leaves something
in the frontier has reached something new, and after one that leaves it empty a further round changes nothing
but the table of the vertices one edge further.
-/

namespace Provenance.Traversal

open Store Database

/-- The tables of a sweep are three. -/
structure Tables.AreApart (t : Tables) : Prop where
  next_frontier : sameName t.next t.frontier = false
  next_reached : sameName t.next t.reached = false
  frontier_reached : sameName t.frontier t.reached = false

theorem sweepTables_areApart : sweepTables.AreApart := by
  refine ⟨?_, ?_, ?_⟩ <;> decide +kernel

/-- A round, taken apart: what is noted of the frontier, the vertices one edge further, what is noted next to
these, and by which columns those that are new, and their ids, are grouped. -/
structure Round (t : Tables) where
  before : List (String × Selection)
  further : Selection
  after : List (String × Selection)
  names : List String
  groups : List String
  groups' : List String
  before_stands : ∀ note ∈ before, note.2.StandsOn t.frontier
  before_avoids : ∀ note ∈ before, (Statement.insertFrom note.1 note.2).Avoids t.next
  further_stands : further.StandsOn t.frontier
  after_stands : ∀ note ∈ after, note.2.StandsOn t.frontier

namespace Round

variable {t : Tables} (r : Round t)

/-- Adds rows to tables. -/
def notes (list : List (String × Selection)) : List Statement := list.map fun (table, q) => .insertFrom table q

/-- The vertices one edge further that are not reached. -/
def fresh : Selection :=
  (Selection.columns ("id" :: r.names) t.next [.outside (.plain "id") t.reached]).groupedBy r.groups

/-- The ids of the frontier. -/
def found : Selection := (Selection.ids t.frontier).groupedBy r.groups'

/-- Finds the vertices one edge further. -/
def finding : List Statement :=
  notes r.before ++ .clear t.next :: notes ((t.next, r.further) :: r.after)

def statements : List Statement :=
  r.finding ++ [.clear t.frontier, .insertFrom t.frontier r.fresh, .insertFrom t.reached r.found]

end Round

/-- The rounds of a sweep. Whether they run through does not depend on their numbers. -/
structure Advances (t : Tables) (round : Int → List Statement) : Prop where
  rounds : ∀ hop, ∃ r : Round t, round hop = r.statements
  ready : ∀ {db : Database} (hop hop' : Int), (∀ s ∈ round hop, s.IsReady db) → ∀ s ∈ round hop', s.IsReady db

/-! ## The rounds of the traversals -/

section Rounds

variable (t : Tables) (subject : Graph) (near far crossed noted : String) (maxDepth : Int)

theorem standsOn_within (terms : List Term) {table : String} {ref : ColumnRef} {conditions : List Condition} :
    (Selection.join terms [⟨table, none, .within ref t.frontier :: conditions⟩]).StandsOn t.frontier :=
  ⟨⟨_, rfl⟩, _, List.mem_cons_self, .inr ⟨ref, List.mem_cons_self⟩⟩

/-- A statement that can be run if another one can, and is the first that differs. -/
theorem ready_cons {db : Database} {s s' : Statement} {ss ss' : List Statement}
    (hs : s.IsReady db → s'.IsReady db) (hss : (∀ s ∈ ss, s.IsReady db) → ∀ s ∈ ss', s.IsReady db)
    (h : ∀ u ∈ s :: ss, u.IsReady db) : ∀ u ∈ s' :: ss', u.IsReady db :=
  List.forall_mem_cons.2 ((List.forall_mem_cons.1 h).imp hs hss)

theorem ready_insertFrom {db : Database} {table : String} {q q' : Selection} (htables : q'.tables = q.tables)
    (hcolumns : q'.unknownColumn? db = q.unknownColumn? db) (h : (Statement.insertFrom table q).IsReady db) :
    (Statement.insertFrom table q').IsReady db :=
  ⟨h.1, htables ▸ h.2.tables, hcolumns.trans h.2.columns⟩

/-- The edges at the frontier are crossed. -/
theorem advances_crossing : Advances t fun _ =>
    [.clear t.next, .insertFrom t.next (t.neighbours near far (onEdgesOf subject)),
      .insertFrom crossed (.idsWhere Algebra.edgeTable (.within (.plain near) t.frontier :: onEdgesOf subject))]
      ++ t.advance where
  rounds _ := ⟨{
    before := []
    further := t.neighbours near far (onEdgesOf subject)
    after := [(crossed, .idsWhere Algebra.edgeTable (.within (.plain near) t.frontier :: onEdgesOf subject))]
    names := []
    groups := []
    groups' := []
    before_stands := nofun
    before_avoids := nofun
    further_stands := ⟨⟨_, rfl⟩, (standsOn_within t []).source⟩
    after_stands := List.forall_mem_singleton.2 (standsOn_within t _) }, rfl⟩
  ready _ _ h := h

theorem next_mem_sweepNames : sweepTables.next ∈ sweepNames := by decide

/-- The edges of a subject are found without the vertices one edge further. -/
theorem avoids_insertFrom_edges {table : String} (htable : sameName sweepTables.next table = false) (terms : List Term)
    (conditions : List Condition)
    (hconditions : ∀ name ∈ conditions.filterMap Condition.table?, sameName sweepTables.next name = false) :
    (Statement.insertFrom table (.join terms [⟨Algebra.edgeTable, none, conditions ++ onEdgesOf subject⟩])).Avoids
      sweepTables.next := by
  have hsubject : ∀ name ∈ (onEdgesOf subject).filterMap Condition.table?, sameName sweepTables.next name = false := by
    rw [onEdgesOf]
    split
    · exact fun _ hname => absurd hname List.not_mem_nil
    · exact List.forall_mem_singleton.2 (IntegerTable.sameName_sweepNames_table subject .edge _ next_mem_sweepNames)
  refine List.forall_mem_cons.2 ⟨htable, List.forall_mem_cons.2
    ⟨IntegerTable.sameName_sweepNames_edge _ next_mem_sweepNames, fun name hname => ?_⟩⟩
  obtain ⟨_, hsource, hname⟩ := List.mem_flatMap.1 hname
  rw [List.mem_singleton.1 hsource, List.filterMap_append, List.mem_append] at hname
  exact hname.elim (hconditions name) (hsubject name)

theorem advances_noteRound : Advances sweepTables (noteRound sweepTables subject (scratchPrefix ++ "sgconn")) where
  rounds hop := ⟨{
    before := [(scratchPrefix ++ "sgconn",
      .join [.column (.plain "src"), .column (.plain "dst"), .constant (.integer hop)]
      [⟨Algebra.edgeTable, none, .within (.plain "dst") sweepTables.frontier :: onEdgesOf subject⟩])]
    further := sweepTables.neighbours "dst" "src" (onEdgesOf subject)
    after := []
    names := []
    groups := []
    groups' := []
    before_stands := List.forall_mem_singleton.2 (standsOn_within _ _)
    before_avoids := List.forall_mem_singleton.2 (avoids_insertFrom_edges subject
      (show sameName sweepTables.next (scratchPrefix ++ "sgconn") = false by decide +kernel) _
      [.within (.plain "dst") sweepTables.frontier] (List.forall_mem_singleton.2 (by decide +kernel)))
    further_stands := ⟨⟨_, rfl⟩, (standsOn_within _ []).source⟩
    after_stands := nofun }, rfl⟩
  ready _ _ := ready_cons (ready_insertFrom rfl rfl) id

theorem advances_followRound : Advances t (followRound t noted maxDepth) where
  rounds hop := ⟨{
    before := []
    further := (Selection.columns ["dst"] noted
      [.within (.plain "src") t.frontier, .atMost (.plain "depth") hop maxDepth]).groupedBy ["dst"]
    after := []
    names := []
    groups := []
    groups' := []
    before_stands := nofun
    before_avoids := nofun
    further_stands := ⟨⟨_, rfl⟩, (standsOn_within t []).source⟩
    after_stands := nofun }, rfl⟩
  ready _ _ := ready_cons id (ready_cons (ready_insertFrom rfl rfl) id)

theorem standsOn_intoFrontier (connected : String) (terms : List Term) :
    (intoFrontier t connected terms).StandsOn t.frontier := ⟨⟨_, rfl⟩, _, List.mem_cons_self, .inl rfl⟩

theorem advances_noteReachingRound :
    Advances sweepTables (noteReachingRound sweepTables (scratchPrefix ++ "conn") (scratchPrefix ++ "sgconn")) where
  rounds hop := ⟨{
    before := [(scratchPrefix ++ "sgconn", intoFrontier sweepTables (scratchPrefix ++ "conn")
      [.column (.of "k" "src"), .column (.of "k" "dst"), .column (.of "c" "reaching"), .constant (.integer hop)])]
    further := intoFrontier sweepTables (scratchPrefix ++ "conn")
      [.column (.of "k" "src"), .column (.of "c" "reaching")]
    after := []
    names := ["reaching"]
    groups := ["id", "reaching"]
    groups' := ["id"]
    before_stands := List.forall_mem_singleton.2 (standsOn_intoFrontier _ _ _)
    before_avoids := List.forall_mem_singleton.2 (show ∀ name ∈ [scratchPrefix ++ "sgconn", sweepTables.frontier,
      scratchPrefix ++ "conn"], sameName sweepTables.next name = false by decide +kernel)
    further_stands := standsOn_intoFrontier _ _ _
    after_stands := nofun }, rfl⟩
  ready _ _ := ready_cons (ready_insertFrom rfl rfl) id

theorem advances_followNearestRound : Advances t (followNearestRound t noted maxDepth) where
  rounds hop := ⟨{
    before := []
    further := (Selection.join [.least (.of "s" "dst")]
      [⟨t.frontier, some "c", []⟩,
        ⟨noted, some "s",
          [.same (.of "c" "id") (.of "s" "src"), .atMost (.of "s" "depth") hop maxDepth,
            .leastOf (.of "s" "depth") (.of "t" "depth") noted "t"
              [(.of "t" "src", .of "s" "src"), (.of "t" "reaching", .of "s" "reaching")]]⟩]).grouped
      [.of "s" "src", .of "s" "reaching"]
    after := []
    names := []
    groups := []
    groups' := []
    before_stands := nofun
    before_avoids := nofun
    further_stands := ⟨⟨_, rfl⟩, _, List.mem_cons_self, .inl rfl⟩
    after_stands := nofun }, rfl⟩
  ready _ _ := ready_cons id (ready_cons (ready_insertFrom rfl rfl) id)

end Rounds

/-! ## Rounds from an empty frontier -/

namespace Round

variable {t : Tables} (r : Round t) {db : Database}

theorem isRefill_notes (list : List (String × Selection)) : ∀ s ∈ notes list, s.IsRefill := by
  intro s hs
  obtain ⟨note, -, rfl⟩ := List.mem_map.1 hs
  exact .insertFrom note.1 note.2

theorem avoids_before : ∀ s ∈ notes r.before, s.Avoids t.next := by
  intro s hs
  obtain ⟨note, hnote, rfl⟩ := List.mem_map.1 hs
  exact r.before_avoids note hnote

theorem isRefill : ∀ s ∈ r.statements, s.IsRefill := by
  simp only [statements, finding, List.forall_mem_append, List.forall_mem_cons]
  exact ⟨⟨isRefill_notes _, .clear _, isRefill_notes _⟩, .clear _, .insertFrom _ _, .insertFrom _ _, nofun⟩

theorem standsOn_fresh : r.fresh.StandsOn t.next := ⟨⟨_, rfl⟩, _, List.mem_cons_self, .inl rfl⟩

theorem standsOn_found : r.found.StandsOn t.frontier := ⟨⟨_, rfl⟩, _, List.mem_cons_self, .inl rfl⟩

/-- A property that asks for tables only, and holds of databases alike but for one table. -/
structure Idle (base : Database) (table : String) (I : Database → Prop) : Prop where
  alike : ∀ db, I db → AlikeBut table base db
  congr : ∀ db db', (∀ name, db'.table? name = db.table? name) → I db → I db'

theorem Idle.insertFrom {base : Database} {I : Database → Prop} (hI : Idle base t.next I) {table source : String}
    {q : Selection} (hq : q.StandsOn source) (hempty : ∀ db, I db → db.HasNoRows source)
    (hready : (Statement.insertFrom table q).IsReady base) (db : Database) (hdb : I db) :
    ∃ db', db.apply (.insertFrom table q) = .ok (db', none) ∧ I db' := by
  obtain ⟨htable, hreadable⟩ := hready.congr (hI.alike db hdb).sameColumns
  obtain ⟨db', happly, hsame⟩ := insertFrom_none htable (hq.rows (hempty db hdb) hreadable)
  exact ⟨db', happly, hI.congr db db' hsame hdb⟩

theorem Idle.notes {base : Database} {I : Database → Prop} (hI : Idle base t.next I)
    (hempty : ∀ db, I db → db.HasNoRows t.frontier) {list : List (String × Selection)}
    (hstands : ∀ note ∈ list, note.2.StandsOn t.frontier) (hready : ∀ s ∈ notes list, s.IsReady base) :
    Leads I (notes list) I := by
  induction list with
  | nil => exact .nil fun _ h => h
  | cons note list ih =>
    obtain ⟨hfirst, hrest⟩ := List.forall_mem_cons.1 hstands
    obtain ⟨hfirst', hrest'⟩ := List.forall_mem_cons.1 hready
    exact .cons (hI.insertFrom hfirst hempty hfirst') (ih hrest hrest')

/-- Once the frontier is empty, a round that can be run runs through, and changes at most the table of the
vertices one edge further. -/
theorem leads_idle (ht : t.AreApart) (hempty : db.HasNoRows t.frontier) (hready : ∀ s ∈ r.statements, s.IsReady db) :
    Leads (AlikeBut t.next db) r.statements (AlikeBut t.next db) := by
  simp only [statements, finding, List.forall_mem_append, List.forall_mem_cons] at hready
  obtain ⟨⟨hbefore, hnext, hfurther⟩, hclear, hfresh, hfound, -⟩ := hready
  have hfrontier : ∀ db', AlikeBut t.next db db' → db'.HasNoRows t.frontier := fun db' h =>
    hempty.congr (h.others _ ht.next_frontier)
  have hI : Idle db t.next (AlikeBut t.next db) := ⟨fun _ h => h, fun _ _ hsame h => h.trans (.of_eq hsame)⟩
  have hJ : Idle db t.next fun db' => AlikeBut t.next db db' ∧ db'.HasNoRows t.next :=
    ⟨fun _ h => h.1, fun _ _ hsame h => ⟨h.1.trans (.of_eq hsame), h.2.congr (hsame t.next)⟩⟩
  refine .append (J := fun db' => AlikeBut t.next db db' ∧ db'.HasNoRows t.next)
    (.append (hI.notes hfrontier r.before_stands hbefore) (.cons
      (J := fun db' => AlikeBut t.next db db' ∧ db'.HasNoRows t.next) (fun db' h => ?_)
      (hJ.notes (fun _ h => hfrontier _ h.1) (List.forall_mem_cons.2 ⟨r.further_stands, r.after_stands⟩) hfurther)))
    (.cons (J := fun db' => AlikeBut t.next db db' ∧ db'.HasNoRows t.next) (fun db' h => ?_)
      (.cons (hJ.insertFrom r.standsOn_fresh (fun _ h => h.2) hfresh)
        (.cons (hJ.insertFrom r.standsOn_found (fun _ h => hfrontier _ h.1) hfound) (.nil fun _ h => h.1))))
  · obtain ⟨u, hu⟩ := Option.isSome_iff_exists.1 (hnext.congr h.sameColumns)
    refine ⟨_, apply_clear hu, h.trans (.of_rows hu []), ?_⟩
    rw [HasNoRows, (table?_replace_rows hu []).1]
    rintro _ ⟨⟩
    rfl
  · obtain ⟨u, hu⟩ := Option.isSome_iff_exists.1 (hclear.congr h.1.sameColumns)
    have hrows : ({ u with rows := [] } : Table) = u := by
      rw [← hfrontier db' h.1 u hu]
    refine ⟨_, apply_clear hu, hJ.congr _ _ ?_ h⟩
    rw [hrows]
    exact table?_replace_self hu

end Round

end Provenance.Traversal
