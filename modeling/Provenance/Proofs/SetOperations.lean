import Provenance.Proofs.ExportedGraphs
import Provenance.Proofs.Subgraphs

/-!
# Set operations

What the set operations and limits make of the ids of a graph, on each side by itself. What is common to two
graphs and what is not makes up the first one, each id as often as it was there. Operations that remove
repetitions write the ids in ascending order, and repeated they change nothing more.
-/

namespace Provenance.Algebra

open Store Database Traversal OrderedMap Action

/-! ## Ids, each once -/

section Ids

variable {db : Database} {table : String} {ns : List Int}

/-- The row of an id. -/
abbrev idScope (table : String) (n : Int) : Scope := [⟨table, graphColumns, integers (one n)⟩]

theorem keyOf_idScope (table : String) (n : Int) :
    Selection.keyOf [.plain "id"] (idScope table n) = integers (one n) := by
  rw [Selection.keyOf, List.map_cons, List.map_nil, Scope.cell_of_find? (find?_id table n)]
  rfl

theorem exists_key_ids (table : String) (ns : List Int) :
    ∃ key : Scope → List Int, (∀ sc ∈ ns.map (idScope table), Selection.keyOf [.plain "id"] sc = integers (key sc)) ∧
      ∀ n ∈ ns, key (idScope table n) = one n :=
  Selection.exists_key Cell.order_integer fun n _ => keyOf_idScope table n

/-- Each id has one group, and the groups ascend. -/
theorem groups_ids {terms : List Term} {f : Int → Row}
    (hvalue : ∀ n rest, terms.map (Term.value (idScope table n :: rest)) = f n) :
    (Selection.groups [.plain "id"] (ns.map (idScope table))).map (fun group => terms.map (Term.value group))
      = (ascending ns).map f := by
  obtain ⟨key, hscope, hkey⟩ := exists_key_ids table ns
  obtain ⟨keys, hascend, hmem, hgroups⟩ := Selection.exists_keys_groups Cell.order_integer
    (List.cons_ne_nil (.plain "id") []) hscope
  have hone : ∀ k, k ∈ keys ↔ ∃ n ∈ ns, one n = k := fun k => by
    simp only [hmem, List.mem_map, exists_exists_and_eq_and]
    exact exists_congr fun n => and_congr_right fun hn => by rw [hkey n hn]
  obtain ⟨found, rfl⟩ : keys ∈ Set.range (List.map one) := by
    rw [Set.range_list_map]
    exact fun k hk => ((hone k).1 hk).imp fun _ h => h.2
  have hlt : found.Pairwise (· < ·) := by
    refine (List.pairwise_map.1 hascend).imp fun {n m} h => ?_
    rw [one, one, List.compare_cons_cons, List.compare_nil_nil, Ordering.then_eq] at h
    exact Int.compare_eq_lt.1 h
  have hids : found = ascending ns := by
    rw [← ascending_of_pairwise hlt]
    refine ascending_congr fun n => ?_
    rw [← List.mem_map_of_injective one_injective, hone]
    simp [one_injective.eq_iff]
  rw [← hids, eq_comm, ← List.forall₂_eq_eq_eq, List.forall₂_map_left_iff, List.forall₂_map_right_iff]
  refine (List.forall₂_map_left_iff.1 hgroups).imp fun n group h => ?_
  obtain ⟨hne, hgroup⟩ := h
  obtain ⟨sc, rest, rfl⟩ := List.exists_cons_of_ne_nil hne
  obtain ⟨hsc, hn⟩ := (hgroup sc).1 List.mem_cons_self
  obtain ⟨m, hm, rfl⟩ := List.mem_map.1 hsc
  rw [hkey m hm] at hn
  rw [one_injective hn, hvalue]

variable (h : db.HoldsIntegers table graphColumns (ns.map one))
include h

theorem scopes_ids : Selection.scopes db [⟨table, none, []⟩] = ns.map (idScope table) := by
  have hreads : Selection.ReadsIntegers db table graphColumns ns one [] fun _ => true := ⟨h, nofun, fun _ => rfl⟩
  rw [hreads.scopes, List.filter_true]

theorem finds_ids {terms : List Term} (hterms : ∀ ref ∈ terms.flatMap Term.mentions, ref = .plain "id") :
    ((Selection.join terms [⟨table, none, []⟩]).groupedBy ["id"]).Finds db := by
  have hreads : Selection.ReadsIntegers db table graphColumns ns one [] fun _ => true := ⟨h, nofun, fun _ => rfl⟩
  exact hreads.finds [.plain "id"] (fun ref href => by rw [hterms ref href]; exact knows_id table)
    (List.forall_mem_singleton.2 (knows_id table))

/-- One row for each id of a table. -/
theorem rows_groupedIds {terms : List Term} (hterms : ∀ ref ∈ terms.flatMap Term.mentions, ref = .plain "id")
    {f : Int → Row} (hvalue : ∀ n rest, terms.map (Term.value (idScope table n :: rest)) = f n) :
    ((Selection.join terms [⟨table, none, []⟩]).groupedBy ["id"]).rows db = .ok ((ascending ns).map f) := by
  have hanswer : ((Selection.join terms [⟨table, none, []⟩]).groupedBy ["id"]).answer db
      = (Selection.groups [.plain "id"] (Selection.scopes db [⟨table, none, []⟩])).map
        fun group => terms.map (Term.value group) := rfl
  rw [(finds_ids h hterms).rows, hanswer, scopes_ids h, groups_ids hvalue]

omit h in
theorem value_id (n : Int) (rest : List Scope) :
    [Term.column (.plain "id")].map (Term.value (idScope table n :: rest)) = integers (one n) := keyOf_idScope table n

omit h in
theorem mentions_id : ∀ ref ∈ [Term.column (.plain "id")].flatMap Term.mentions, ref = .plain "id" := by
  simp [Term.mentions]

/-- The ids of a table, each once. -/
theorem rows_distinct : ((Selection.ids table).groupedBy ["id"]).rows db
    = .ok (((ascending ns).map one).map integers) := by
  rw [List.map_map]
  exact rows_groupedIds h mentions_id value_id

/-- The first ids of a table. -/
theorem rows_firstIds (n : ℕ) : (firstIds table n).rows db = .ok ((((ascending ns).take n).map one).map integers) := by
  have hdistinct : ((Selection.ids table).groupedBy ["id"]).Finds db := finds_ids h mentions_id
  have hfinds : (firstIds table n).Finds db := ⟨hdistinct.sources, hdistinct.conditions, hdistinct.groupBy,
    hdistinct.groupBy, hdistinct.terms⟩
  have hanswer : (firstIds table n).answer db
      = ((Selection.sortGroups [.plain "id"] (Selection.groups [.plain "id"]
        (Selection.scopes db [⟨table, none, []⟩]))).take n).map
        fun group => [Term.column (.plain "id")].map (Term.value group) := rfl
  obtain ⟨key, hkey, -⟩ := exists_key_ids table ns
  have hsorted := Selection.sortGroups_groups Cell.order_integer (List.cons_ne_nil (.plain "id") []) hkey
  rw [hfinds.rows, hanswer, scopes_ids h, hsorted, List.map_take, groups_ids value_id, ← List.map_take, List.map_map]
  rfl

end Ids

/-! ## One side -/

section Sides

variable {db db' db'' : Database} {target a b : Graph} {side : Side} {V W ids : Side → List Int} {ns : List Int}

/-- A graph has these ids on each side, in this order. -/
abbrev HoldsSides (db : Database) (g : Graph) (ids : Side → List Int) : Prop :=
  HoldsGraph db g (ids .vertex) (ids .edge)

theorem holds_side {g : Graph} (h : HoldsSides db g ids) (side : Side) :
    db.HoldsIntegers (g.table side) graphColumns ((ids side).map one) := by
  cases side with
  | vertex => exact h.vertices
  | edge => exact h.edges

/-- A graph has only these ids, in this order. -/
theorem sides_eq {g : Graph} (h : HoldsSides db g V) (h' : HoldsSides db g W) : V = W := funext fun side =>
  List.map_injective_iff.2 one_injective ((holds_side h side).eq (holds_side h' side))

/-- Ids that are selected are written to an empty side. -/
theorem apply_fill (h : db.HoldsIntegers (target.table side) graphColumns []) {q : Selection}
    (hq : q.rows db = .ok ((ns.map one).map integers)) :
    ∃ db', db.apply (.insertFrom (target.table side) q) = .ok (db', none) ∧
      db'.HoldsIntegers (target.table side) graphColumns (ns.map one) ∧ Keeps db db' (target.table side) :=
  h.insertFrom (areIntegers_map _) (isOpen_map _) hq fun row hrow => by
    obtain ⟨n, -, rfl⟩ := List.mem_map.1 hrow
    rfl

/-- The sides are written one after the other. -/
theorem written_sides {vertices edges : List Int}
    (hvertices : db'.HoldsIntegers target.vertexTable graphColumns (vertices.map one))
    (hfirst : Keeps db db' target.vertexTable)
    (hedges : db''.HoldsIntegers target.edgeTable graphColumns (edges.map one))
    (hsecond : Keeps db' db'' target.edgeTable) : Written db target vertices edges db'' where
  vertices := hvertices.congr (hsecond _ (by rw [sameName_comm]; exact sameName_vertexTable_edgeTable target target))
  edges := hedges
  others name _ hside := by rw [hsecond name (hside .edge), hfirst name (hside .vertex)]

/-- What is selected on each side is written. On the way to the second side the first one is written already. -/
theorem fillSides_writes (htarget : HoldsSides db target fun _ => []) {select : Side → Selection}
    (hselect : ∀ side db', (∀ g : Graph, db'.table? (g.table side) = db.table? (g.table side)) →
      (select side).rows db' = .ok (((ids side).map one).map integers)) :
    ∃ db', (fillSides Backend.memory target select).runFrom db = (.ok (), db') ∧
      Written db target (ids .vertex) (ids .edge) db' := by
  have hleads : Leads (· = db) [.insertFrom target.vertexTable (select .vertex),
      .insertFrom target.edgeTable (select .edge)] (Written db target (ids .vertex) (ids .edge)) := by
    refine .cons (J := fun db' => db'.HoldsIntegers target.vertexTable graphColumns ((ids .vertex).map one) ∧
      Keeps db db' target.vertexTable) ?_ (.single ?_)
    · rintro _ rfl
      exact apply_fill htarget.vertices (hselect .vertex _ fun _ => rfl)
    · rintro db' ⟨hvertices, hfirst⟩
      have hgraphs : ∀ g : Graph, db'.table? (g.table .edge) = db.table? (g.table .edge) := fun g =>
        hfirst _ (sameName_vertexTable_edgeTable target g)
      obtain ⟨db'', happly, hedges, hsecond⟩ := apply_fill (htarget.edges.congr (hgraphs target))
        (hselect .edge db' hgraphs)
      exact ⟨db'', happly, written_sides hvertices hfirst hedges hsecond⟩
  exact exists_performed hleads rfl

/-- The first ids of one side are written, if there are any. -/
theorem limitSide_writes (htarget : db.HoldsIntegers (target.table side) graphColumns [])
    (ha : db.HoldsIntegers (a.table side) graphColumns (ns.map one)) (hsize : ns.length < 2 ^ 63) (n : ℕ) :
    ∃ db', (do
        let size ← Backend.memory.count (a.table side)
        if 0 < size then
          Backend.memory.performAll [.insertFrom (target.table side) (firstIds (a.table side) n)]
        else pure () : Action Database BackendError Unit).runFrom db = (.ok (), db') ∧
      db'.HoldsIntegers (target.table side) graphColumns (((ascending ns).take n).map one) ∧
      Keeps db db' (target.table side) := by
  rw [runFrom_bind_ok (runFrom_count ha (by rwa [List.length_map])), List.length_map]
  cases ns with
  | nil => exact ⟨db, rfl, by simpa [ascending] using htarget, fun _ _ => rfl⟩
  | cons m ns =>
    have hpos : (0 : Int) < (m :: ns).length := by
      rw [List.length_cons]
      omega
    rw [if_pos hpos]
    refine exists_performed (I := (· = db)) (.single ?_) rfl
    rintro _ rfl
    exact apply_fill htarget (rows_firstIds ha n)

/-! ## Both sides -/

/-- The instruction runs through and writes these ids to the target. -/
def Writes (db : Database) (i : Instruction) (target : Graph) (ids : Side → List Int) : Prop :=
  ∃ db', (i.execute Backend.memory).runFrom db = (.ok none, db') ∧ Written db target (ids .vertex) (ids .edge) db'

/-- What an action without an answer leaves, its instruction leaves. -/
theorem executes_silently {i : Instruction} {action : Action Database BackendError Unit} {P : Database → Prop}
    (hi : i.execute Backend.memory = Instruction.execute.silently action)
    (h : ∃ db', action.runFrom db = (.ok (), db') ∧ P db') :
    ∃ db', (i.execute Backend.memory).runFrom db = (.ok none, db') ∧ P db' := by
  obtain ⟨db', hrun, hP⟩ := h
  refine ⟨db', ?_, hP⟩
  rw [hi, Instruction.execute.silently, runFrom_bind_ok hrun]
  rfl

variable (htarget : HoldsSides db target fun _ => []) (ha : HoldsSides db a V) (hb : HoldsSides db b W)
include htarget ha

include hb in
theorem intersect_writes : Writes db (.intersect target a b) target fun side => (V side).filter (· ∈ W side) :=
  executes_silently rfl <| fillSides_writes htarget fun side _ hdb =>
    rows_within ((holds_side ha side).congr (hdb a)) (hasIds_one ((holds_side hb side).congr (hdb b)))

include hb in
theorem subtract_writes : Writes db (.subtract target a b) target fun side => (V side).filter (· ∉ W side) :=
  executes_silently rfl <| fillSides_writes htarget fun side _ hdb =>
    rows_outside ((holds_side ha side).congr (hdb a)) (hasIds_one ((holds_side hb side).congr (hdb b)))

theorem distinct_writes : Writes db (.distinct target a) target fun side => ascending (V side) :=
  executes_silently rfl <| fillSides_writes htarget fun side _ hdb => rows_distinct ((holds_side ha side).congr (hdb a))

theorem limit_writes (hsize : ∀ side, (V side).length < 2 ^ 63) (n : ℕ) :
    Writes db (.limit target a n) target fun side => (ascending (V side)).take n := by
  refine executes_silently rfl ?_
  obtain ⟨db', hrun, hvertices, hfirst⟩ := limitSide_writes htarget.vertices ha.vertices (hsize .vertex) n
  have hgraphs : ∀ g : Graph, db'.table? (g.table .edge) = db.table? (g.table .edge) := fun g =>
    hfirst _ (sameName_vertexTable_edgeTable target g)
  have hempty : db'.HoldsIntegers (target.table .edge) graphColumns [] := htarget.edges.congr (hgraphs target)
  obtain ⟨db'', hrun', hedges, hsecond⟩ := limitSide_writes hempty (ha.edges.congr (hgraphs a)) (hsize .edge) n
  have hwritten : Written db target ((ascending (V .vertex)).take n) ((ascending (V .edge)).take n) db'' :=
    written_sides hvertices hfirst hedges hsecond
  refine ⟨db'', ?_, hwritten⟩
  exact (runFrom_bind_ok hrun _).trans ((runFrom_bind_ok hrun' _).trans rfl)

end Sides

/-! ## Laws -/

/-- The least ids of a list, each once: so many, or all if there are fewer. -/
structure IsFirst (n : ℕ) (V first : List Int) : Prop where
  nodup : first.Nodup
  mem : ∀ x ∈ first, x ∈ V
  length : first.length = min n V.toFinset.card
  least : ∀ x ∈ first, ∀ y ∈ V, y ∉ first → x < y

/-- What the ids of one side of two graphs have in common, what is left of the first ones, and the first ones
each once, all or so many of them. -/
structure SetLaws (V W common rest once : List Int) (first : ℕ → List Int) : Prop where
  sum : (common ++ rest).Perm V
  within : ∀ x ∈ common, x ∈ W
  outside : ∀ x ∈ rest, x ∉ W
  nodup : once.Nodup
  mem_once : ∀ x, x ∈ once ↔ x ∈ V
  isFirst : ∀ n, IsFirst n V (first n)
  all : ∀ n, once.length ≤ n → (first n).Perm once

theorem length_ascending (V : List Int) : (ascending V).length = V.toFinset.card := by
  rw [ascending, Finset.length_sort]

theorem isFirst_take (n : ℕ) (V : List Int) : IsFirst n V ((ascending V).take n) where
  nodup := ((pairwise_ascending V).imp ne_of_lt).sublist (List.take_sublist n _)
  mem x hx := mem_ascending.1 (List.mem_of_mem_take hx)
  length := by rw [List.length_take, length_ascending]
  least x hx y hy hyn := by
    have hsplit := pairwise_ascending V
    rw [← List.take_append_drop n (ascending V), List.pairwise_append] at hsplit
    refine hsplit.2.2 x hx y ?_
    have hmem := mem_ascending.2 hy
    rw [← List.take_append_drop n (ascending V), List.mem_append] at hmem
    exact hmem.resolve_left hyn

theorem setLaws (V W : List Int) : SetLaws V W (V.filter (· ∈ W)) (V.filter (· ∉ W)) (ascending V)
    fun n => (ascending V).take n where
  sum := by simpa using List.filter_append_perm (fun x => decide (x ∈ W)) V
  within x hx := by simpa using (List.mem_filter.1 hx).2
  outside x hx := by simpa using (List.mem_filter.1 hx).2
  nodup := (pairwise_ascending V).imp ne_of_lt
  mem_once x := mem_ascending
  isFirst n := isFirst_take n V
  all n hn := by rw [List.take_of_length_le hn]

theorem ascending_ascending (V : List Int) : ascending (ascending V) = ascending V :=
  ascending_of_pairwise (pairwise_ascending V)

theorem ascending_take (n : ℕ) (V : List Int) : ascending ((ascending V).take n) = (ascending V).take n :=
  ascending_of_pairwise ((pairwise_ascending V).sublist (List.take_sublist n _))

/-- Intersection and difference split a graph by the ids of another one. The ids that are left once are the same
when they are asked for once more, and the first of the first ones are first ones. For limits a side has fewer
than `2 ^ 63` ids, as the store counts rows with a word. -/
theorem set_operations {db : Database} {target a b : Graph} {V W : Side → List Int}
    (htarget : HoldsSides db target fun _ => []) (ha : HoldsSides db a V) (hb : HoldsSides db b W) :
    ∃ (common rest once : Side → List Int) (first : ℕ → Side → List Int),
      (∀ side, SetLaws (V side) (W side) (common side) (rest side) (once side) (first · side)) ∧
      Writes db (.intersect target a b) target common ∧
      Writes db (.subtract target a b) target rest ∧
      Writes db (.distinct target a) target once ∧
      (∀ (db' : Database) (c other : Graph), HoldsSides db' other (fun _ => []) → HoldsSides db' c once →
        Writes db' (.distinct other c) other once) ∧
      ((∀ side, (V side).length < 2 ^ 63) → ∀ m : ℕ, Writes db (.limit target a m) target (first m) ∧
        ∀ (db' : Database) (c other : Graph), HoldsSides db' other (fun _ => []) → HoldsSides db' c (first m) →
          ∀ n : ℕ, Writes db' (.limit other c n) other (first (min m n))) := by
  refine ⟨fun side => (V side).filter (· ∈ W side), fun side => (V side).filter (· ∉ W side),
    fun side => ascending (V side), fun n side => (ascending (V side)).take n, fun side => setLaws _ _,
    intersect_writes htarget ha hb, subtract_writes htarget ha hb, distinct_writes htarget ha,
    fun db' c other hother hc => ?_, fun hsize m => ⟨limit_writes htarget ha hsize m,
    fun db' c other hother hc n => ?_⟩⟩
  · simpa only [ascending_ascending] using distinct_writes hother hc
  · have hshort : ∀ side, ((ascending (V side)).take m).length < 2 ^ 63 := fun side => by
      have hle := List.toFinset_card_le (V side)
      rw [List.length_take, length_ascending]
      exact ((Nat.min_le_right _ _).trans hle).trans_lt (hsize side)
    have hlimit := limit_writes hother hc hshort n
    simpa only [ascending_take, List.take_take, Nat.min_comm n m] using hlimit

/-- One vertex is repeated and one edge is not known; the first vertex is the least one. -/
theorem set_operations_diamond : ∃ (common rest once : Side → List Int) (first : ℕ → Side → List Int),
    Writes (sketched diamond [9, 4, 4] [12, 12, 77]) (.intersect ⟨"trace_2"⟩ ⟨"trace_1"⟩ .base) ⟨"trace_2"⟩ common ∧
    Writes (sketched diamond [9, 4, 4] [12, 12, 77]) (.subtract ⟨"trace_2"⟩ ⟨"trace_1"⟩ .base) ⟨"trace_2"⟩ rest ∧
    Writes (sketched diamond [9, 4, 4] [12, 12, 77]) (.distinct ⟨"trace_2"⟩ ⟨"trace_1"⟩) ⟨"trace_2"⟩ once ∧
    Writes (sketched diamond [9, 4, 4] [12, 12, 77]) (.limit ⟨"trace_2"⟩ ⟨"trace_1"⟩ 1) ⟨"trace_2"⟩ (first 1) ∧
    (common .vertex ++ rest .vertex).Perm [9, 4, 4] ∧ (once .vertex).Perm [4, 9] ∧ first 1 .vertex = [4] := by
  obtain ⟨common, rest, once, first, hlaws, hcommon, hrest, honce, -, hlimit⟩ :=
    @set_operations (sketched diamond [9, 4, 4] [12, 12, 77]) ⟨"trace_2"⟩ ⟨"trace_1"⟩ .base
      (fun side => side.casesOn [9, 4, 4] [12, 12, 77]) (fun side => side.casesOn [1, 2, 3, 4] [10, 11, 12, 13])
      ⟨by decide +kernel, by decide +kernel⟩ ⟨by decide +kernel, by decide +kernel⟩
      ⟨by decide +kernel, by decide +kernel⟩
  refine ⟨common, rest, once, first, hcommon, hrest, honce,
    (hlimit (fun side => by cases side <;> decide) 1).1, (hlaws .vertex).sum, ?_, ?_⟩
  · refine (List.perm_ext_iff_of_nodup (hlaws .vertex).nodup (by decide)).2 fun x => ?_
    rw [(hlaws .vertex).mem_once]
    simp
    omega
  · have hfirst := (hlaws .vertex).isFirst 1
    obtain ⟨x, hx⟩ := List.length_eq_one_iff.1 (hfirst.length.trans (by decide))
    have hmem := hfirst.mem x (by rw [hx]; exact List.mem_singleton_self x)
    have hleast := hfirst.least x (by rw [hx]; exact List.mem_singleton_self x) 4 (by simp)
    rw [hx] at hleast ⊢
    simp at hmem hleast
    simp
    omega

end Provenance.Algebra
