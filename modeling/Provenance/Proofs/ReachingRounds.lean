import Mathlib.Data.Set.Card
import Provenance.Proofs.SweepRounds

/-!
# Rounds towards single destinations

What one round of the search for shortest paths does to the lists in its scratch tables. Vertices in the
backward frontier and noted connections carry the destination that they lead to.
-/

namespace Provenance.Traversal

open Store Database IntegerTable Action

/-! ## Tables of pairs -/

/-- A row of two integers. -/
def pair (x : Int × Int) : List Int := [x.1, x.2]

theorem pair_injective : Function.Injective pair := fun x y h => by
  simp only [pair, List.cons.injEq, and_true] at h
  exact Prod.ext h.1 h.2

/-- A crossed connection with the destination that it leads to and the round in which it was noted. -/
structure ReachingNote where
  src : Int
  dst : Int
  reaching : Int
  depth : Int
  deriving DecidableEq

def ReachingNote.row (n : ReachingNote) : List Int := [n.src, n.dst, n.reaching, n.depth]

/-- The table of notes. -/
def reachingTable (notes : List ReachingNote) : IntegerTable :=
  ⟨scratchPrefix ++ "sgconn", ["src", "dst", "reaching", "depth"], notes.map ReachingNote.row⟩

/-- The table of connections. -/
def connectedTable (C : List (Int × Int)) : IntegerTable :=
  ⟨scratchPrefix ++ "conn", ["src", "dst"], C.map pair⟩

section Find

variable {column : String} {k : Int}

theorem find?_frontier (i : ℕ) (x : Int × Int) (hcolumn : (["id", "reaching"])[i]? = some column)
    (hn : (pair x)[i]? = some k) (source : String) :
    Scope.find? [⟨source, ["id", "reaching"].map Column.integer, integers (pair x)⟩] (.plain column)
      = some (.integer, .integer k) :=
  Scope.find?_named (by decide) (by decide) i hcolumn hn source

theorem find?_connected (i : ℕ) (x : Int × Int) (hcolumn : (["src", "dst"])[i]? = some column)
    (hn : (pair x)[i]? = some k) (source : String) :
    Scope.find? [⟨source, ["src", "dst"].map Column.integer, integers (pair x)⟩] (.plain column)
      = some (.integer, .integer k) :=
  Scope.find?_named (by decide) (by decide) i hcolumn hn source

theorem find?_reaching (i : ℕ) (n : ReachingNote) (hcolumn : (["src", "dst", "reaching", "depth"])[i]? = some column)
    (hn : n.row[i]? = some k) (source : String) :
    Scope.find? [⟨source, ["src", "dst", "reaching", "depth"].map Column.integer, integers n.row⟩] (.plain column)
      = some (.integer, .integer k) :=
  Scope.find?_named (by decide) (by decide) i hcolumn hn source

end Find

variable {base db : Database} {more : List IntegerTable} {subject : Graph} {edges : List Connection}
  {kept reached : List Int}

/-! ## The connections of a subject -/

/-- Two vertices are connected if there is an edge between them. -/
theorem rows_connections (h : Recorded db subject edges kept) :
    ∃ C : List (Int × Int), (∀ u w, (u, w) ∈ C ↔ Joined (connectionsOf subject kept edges) u w) ∧
      (connections subject).rows db = .ok ((C.map pair).map integers) := by
  have hreads : Selection.ReadsIntegers db Algebra.edgeTable Storage.edgeTable.columns edges Connection.row
      (if subject.isBase then [] else [.within (.plain "id") subject.edgeTable])
      fun e => subject.isBase || decide (e.id ∈ kept) := by
    refine ⟨h.edges, fun c hc => ?_, fun e => ?_⟩
    · split at hc
      · cases hc
      · next hbase =>
        rw [List.mem_singleton.1 hc, Condition.fits_within]
        exact ⟨knows_edge (by decide) _, (h.kept (by simpa using hbase)).isSome⟩
    · cases hbase : subject.isBase with
      | true => rfl
      | false =>
        simp only [Bool.false_eq_true, if_false, List.all_cons, List.all_nil, Bool.and_true, Bool.false_or,
          Condition.holds_within_integers (find?_number e _) (h.kept hbase)]
  obtain ⟨C, -, hmem, hrows⟩ := hreads.rows_grouped ["src", "dst"] (f := fun e => pair (e.src, e.dst))
    (g := fun e => (e.src, e.dst)) (by decide) (fun e => by
      rw [List.map_cons, List.map_cons, List.map_nil, Scope.cell_of_find? (find?_src e _),
        Scope.cell_of_find? (find?_dst e _)]
      rfl) pair_injective (fun _ => rfl) (by decide)
  refine ⟨C, fun u w => ?_, hrows⟩
  simp only [hmem, Joined, connectionsOf, List.mem_filter, and_assoc, Prod.mk.injEq]

/-! ## Backward rounds -/

/-- Vertices in the frontier and one edge further, with the destinations that they lead to, and reached vertices; and
more tables. -/
def StandsReaching (base : Database) (F N : List (Int × Int)) (R : List Int) (more : List IntegerTable) :
    Database → Prop :=
  Over base (⟨sweepTables.frontier, ["id", "reaching"], F.map pair⟩
    :: ⟨sweepTables.next, ["id", "reaching"], N.map pair⟩ :: ⟨sweepTables.reached, ["id"], R.map one⟩ :: more)

variable {F N : List (Int × Int)} {R : List Int} {C : List (Int × Int)} {notes : List ReachingNote}

/-- The note of a connection into the frontier. -/
def reachingNote (hop : Int) (z : (Int × Int) × Int × Int) : ReachingNote := ⟨z.2.1, z.2.2, z.1.2, hop⟩

namespace StandsReaching

variable (h : StandsReaching base F N R more db)
include h

theorem inFrontier : db.HoldsIntegers sweepTables.frontier (["id", "reaching"].map Column.integer) (F.map pair) :=
  Over.holds h _ (.head _)

theorem inNext : db.HoldsIntegers sweepTables.next (["id", "reaching"].map Column.integer) (N.map pair) :=
  Over.holds h _ (.tail _ (.head _))

theorem inReached : db.HoldsIntegers sweepTables.reached graphColumns (R.map one) :=
  Over.holds h _ (.tail _ (.tail _ (.head _)))

/-- The connections into the frontier. -/
theorem pairs_into (hC : connectedTable C ∈ more) : Selection.Pairs db sweepTables.frontier (scratchPrefix ++ "conn")
    "c" "k" (["id", "reaching"].map Column.integer) (["src", "dst"].map Column.integer) F pair C pair
    [.same (.of "c" "id") (.of "k" "dst")] fun z => decide (z.1.1 = z.2.2) where
  first := h.inFrontier
  second := Over.holds h (connectedTable C) (.tail _ (.tail _ (.tail _ hC)))
  fits := by simp (disch := decide) [Scope.hasColumn_of_mem]
  holds z _ := by
    have hne : sameName "c" "k" = false := sameName_eq_false_of_isLower (by decide) (by decide) (by decide)
    rw [List.all_cons, List.all_nil, Bool.and_true, Condition.holds_same_integers
      ((Selection.find?_beside_left z "id").trans (find?_frontier 0 z.1 rfl rfl _))
      ((Selection.find?_beside_right hne z "dst").trans (find?_connected 1 z.2 rfl rfl _))]

/-- The vertices in the frontier, each once. -/
theorem rows_vertices : ∃ new : List Int, (∀ v, v ∈ new ↔ ∃ t, (v, t) ∈ F) ∧
    ((Selection.ids sweepTables.frontier).groupedBy ["id"]).rows db = .ok ((new.map one).map integers) := by
  have hreads : Selection.ReadsIntegers db sweepTables.frontier (["id", "reaching"].map Column.integer) F pair []
      fun _ => true := ⟨h.inFrontier, nofun, fun _ => rfl⟩
  obtain ⟨new, -, hmem, hrows⟩ := hreads.rows_grouped ["id"] (f := fun x => one x.1) (g := Prod.fst)
    (by decide) (fun x => congrArg (fun c => [c]) (Scope.cell_of_find? (find?_frontier 0 x rfl rfl _))) one_injective
    (fun _ => rfl) (by decide)
  exact ⟨new, fun v => by simp [hmem], hrows⟩

end StandsReaching

/-- The pairs of a vertex in the frontier and a connection into it. -/
def into (F C : List (Int × Int)) : List ((Int × Int) × Int × Int) := (F ×ˢ C).filter fun z => z.1.1 = z.2.2

theorem mem_into {u v w t : Int} : ((w, t), u, v) ∈ into F C ↔ ((w, t) ∈ F ∧ (u, v) ∈ C) ∧ w = v := by
  rw [into, List.mem_filter, decide_eq_true_eq]
  exact and_congr_left fun _ => List.mem_product

/-- A row of the frontier beside a connection. -/
abbrev besideInto (z : (Int × Int) × Int × Int) : Scope :=
  Selection.beside "c" "k" (["id", "reaching"].map Column.integer) (["src", "dst"].map Column.integer) pair pair z

theorem cells_besideInto (z : (Int × Int) × Int × Int) : (besideInto z).cell (.of "k" "src") = .integer z.2.1 ∧
    (besideInto z).cell (.of "k" "dst") = .integer z.2.2 ∧ (besideInto z).cell (.of "c" "reaching") = .integer z.1.2 :=
  have hne : sameName "c" "k" = false := sameName_eq_false_of_isLower (by decide) (by decide) (by decide)
  ⟨Scope.cell_of_find? ((Selection.find?_beside_right hne z "src").trans (find?_connected 0 z.2 rfl rfl _)),
    Scope.cell_of_find? ((Selection.find?_beside_right hne z "dst").trans (find?_connected 1 z.2 rfl rfl _)),
    Scope.cell_of_find? ((Selection.find?_beside_left z "reaching").trans (find?_frontier 1 z.1 rfl rfl _))⟩

theorem StandsReaching.rows_into (h : StandsReaching base F N R more db) (hC : connectedTable C ∈ more)
    {terms : List Term} {γ : Type} {code : γ → List Int} {g : (Int × Int) × Int × Int → γ}
    (hterms : ∀ ref ∈ terms.flatMap Term.mentions, Scope.knows [⟨"c", ["id", "reaching"].map Column.integer, []⟩,
      ⟨"k", ["src", "dst"].map Column.integer, []⟩] ref = true)
    (hvalue : ∀ z, terms.map (Term.value [besideInto z]) = integers (code (g z))) :
    (intoFrontier sweepTables (scratchPrefix ++ "conn") terms).rows db
      = .ok ((((into F C).map g).map code).map integers) := by
  rw [intoFrontier, List.map_map (g := code)]
  exact (h.pairs_into hC).rows_terms hterms hvalue

/-- The connections into the frontier are noted, each with the destination. -/
theorem leads_note (hop : Int) : Leads (StandsReaching base F N R [reachingTable notes, connectedTable C])
    [.insertFrom (scratchPrefix ++ "sgconn") (intoFrontier sweepTables (scratchPrefix ++ "conn")
      [.column (.of "k" "src"), .column (.of "k" "dst"), .column (.of "c" "reaching"), .constant (.integer hop)])]
    (StandsReaching base F N R [reachingTable (notes ++ (into F C).map (reachingNote hop)), connectedTable C]) := by
  refine .single fun db h => Over.insertFrom [_, _, _] h (fun _ => rfl) ?_
  refine h.rows_into (.tail _ (.head _)) ?_ fun z => ?_
  · simp (disch := decide) [Term.mentions, Scope.hasColumn_of_mem]
  · obtain ⟨hsrc, hdst, hreaching⟩ := cells_besideInto z
    simp only [List.map_cons, List.map_nil, Term.value, List.head?_cons, Option.map_some, Option.getD_some, hsrc, hdst,
      hreaching]
    rfl

/-- What the connections come from is one edge further. -/
theorem leads_next (hC : connectedTable C ∈ more) : Leads (StandsReaching base F N R more)
    [.clear sweepTables.next, .insertFrom sweepTables.next (intoFrontier sweepTables (scratchPrefix ++ "conn")
      [.column (.of "k" "src"), .column (.of "c" "reaching")])]
    (StandsReaching base F ((into F C).map fun z => (z.2.1, z.1.2)) R more) := by
  refine .cons (J := StandsReaching base F [] R more) (fun db h => Over.clear [_] h) (.single fun db h =>
    Over.insertFrom (l := []) [_] h (fun _ => rfl) (h.rows_into hC ?_ fun z => ?_))
  · simp (disch := decide) [Term.mentions, Scope.hasColumn_of_mem]
  · obtain ⟨hsrc, -, hreaching⟩ := cells_besideInto z
    simp only [List.map_cons, List.map_nil, Term.value, List.head?_cons, Option.map_some, Option.getD_some, hsrc,
      hreaching]
    rfl

/-- What is new there becomes the frontier, and its vertices count as reached. -/
theorem leads_advanceReaching : Leads (StandsReaching base F N R more)
    [.clear sweepTables.frontier, .insertFrom sweepTables.frontier ((Selection.columns ["id", "reaching"]
      sweepTables.next [.outside (.plain "id") sweepTables.reached]).groupedBy ["id", "reaching"]),
      .insertFrom sweepTables.reached ((Selection.ids sweepTables.frontier).groupedBy ["id"])]
    fun db => ∃ found : List (Int × Int), (found.Nodup ∧ ∀ v t, (v, t) ∈ found ↔ v ∉ R ∧ (v, t) ∈ N) ∧
      ∃ new : List Int, (∀ v, v ∈ new ↔ ∃ t, (v, t) ∈ found) ∧ StandsReaching base found N (R ++ new) more db := by
  refine .cons (J := StandsReaching base [] N R more) (fun db h => Over.clear [] h) ?_
  refine .cons (J := fun db => ∃ found : List (Int × Int),
    (found.Nodup ∧ ∀ v t, (v, t) ∈ found ↔ v ∉ R ∧ (v, t) ∈ N) ∧ StandsReaching base found N R more db)
    (fun db h => ?_) (.exists_imp fun found hfound => .single fun db h => ?_)
  · have hids := hasIds_one h.inReached
    have hreads : Selection.ReadsIntegers db sweepTables.next (["id", "reaching"].map Column.integer) N pair
        [.outside (.plain "id") sweepTables.reached] fun x => decide (x.1 ∉ R) := by
      refine ⟨h.inNext, ?_, fun x => ?_⟩
      · simp (disch := decide) [Scope.hasColumn_of_mem, hids.isSome]
      · rw [List.all_cons, List.all_nil, Bool.and_true,
          Condition.holds_outside_integers (find?_frontier 0 x rfl rfl _) hids]
    obtain ⟨found, hnodup, hmem, hrows⟩ := hreads.rows_grouped ["id", "reaching"] (f := pair) (g := id)
      (by decide) (fun x => congrArg₂ (fun c d => [c, d]) (Scope.cell_of_find? (find?_frontier 0 x rfl rfl _))
        (Scope.cell_of_find? (find?_frontier 1 x rfl rfl _))) pair_injective (fun _ => rfl) (by decide)
    obtain ⟨db', happly, hdb'⟩ := Over.insertFrom (l := []) [] h (fun _ => rfl) hrows
    refine ⟨db', happly, found, ⟨hnodup, fun v t => ?_⟩, hdb'⟩
    rw [hmem]
    simp [and_comm]
  · obtain ⟨new, hmem, hrows⟩ := StandsReaching.rows_vertices h
    obtain ⟨db', happly, hdb'⟩ := Over.insertFrom [_, _] h (fun _ => rfl) hrows
    exact ⟨db', happly, new, hmem, hdb'⟩

/-- A backward round notes the connections into the frontier, and finds what is new one edge further. -/
theorem leads_noteReachingRound (hop : Int) :
    Leads (StandsReaching base F N R [reachingTable notes, connectedTable C])
      (noteReachingRound sweepTables (scratchPrefix ++ "conn") (scratchPrefix ++ "sgconn") hop) fun db =>
        ∃ found : List (Int × Int), (found.Nodup ∧ ∀ v t, (v, t) ∈ found ↔ v ∉ R ∧
            (v, t) ∈ (into F C).map fun z => (z.2.1, z.1.2)) ∧
          ∃ new : List Int, (∀ v, v ∈ new ↔ ∃ t, (v, t) ∈ found) ∧
            StandsReaching base found ((into F C).map fun z => (z.2.1, z.1.2)) (R ++ new)
              [reachingTable (notes ++ (into F C).map (reachingNote hop)), connectedTable C] db :=
  (leads_note hop).append ((leads_next (.tail _ (.head _))).append leads_advanceReaching)

/-! ## Forward rounds -/

/-- The columns of the table of notes. -/
abbrev reachingColumns : List Column := ["src", "dst", "reaching", "depth"].map Column.integer

/-- A row of the frontier beside a note. -/
abbrev besideNote (z : Int × ReachingNote) : Scope :=
  Selection.beside "c" "s" graphColumns reachingColumns one ReachingNote.row z

theorem find?_besideNote (z : Int × ReachingNote) {column : String} {k : Int} (i : ℕ)
    (hcolumn : (["src", "dst", "reaching", "depth"])[i]? = some column) (hn : z.2.row[i]? = some k) :
    (besideNote z).find? (.of "s" column) = some (.integer, .integer k) :=
  (Selection.find?_beside_right (sameName_eq_false_of_isLower (by decide) (by decide) (by decide)) z column).trans
    (find?_reaching i z.2 hcolumn hn _)

/-- In a condition on the least of the notes, one more note stands before the others. -/
theorem find?_inner (n : ReachingNote) (z : Int × ReachingNote) {column : String} {k : Int} (i : ℕ)
    (hcolumn : (["src", "dst", "reaching", "depth"])[i]? = some column) :
    (n.row[i]? = some k → Scope.find? (⟨"t", reachingColumns, integers n.row⟩ :: besideNote z) (.of "t" column)
      = some (.integer, .integer k)) ∧
    (z.2.row[i]? = some k → Scope.find? (⟨"t", reachingColumns, integers n.row⟩ :: besideNote z) (.of "s" column)
      = some (.integer, .integer k)) := by
  have hne : sameName "t" "s" = false := sameName_eq_false_of_isLower (by decide) (by decide) (by decide)
  constructor
  · intro hn
    rw [Scope.find?_of_cons, if_pos (sameName_self _)]
    exact find?_reaching i n hcolumn hn _
  · intro hn
    rw [Scope.find?_of_cons, hne, if_neg (by decide)]
    exact find?_besideNote z i hcolumn hn

/-- A note has the least depth of those with the same source and destination. -/
theorem holds_leastOf_notes
    (h : db.HoldsIntegers (scratchPrefix ++ "sgconn") reachingColumns (notes.map ReachingNote.row))
    {z : Int × ReachingNote} (hz : z.2 ∈ notes) :
    (Condition.leastOf (.of "s" "depth") (.of "t" "depth") (scratchPrefix ++ "sgconn") "t"
      [(.of "t" "src", .of "s" "src"), (.of "t" "reaching", .of "s" "reaching")]).holds db (besideNote z)
      = decide (∀ n ∈ notes, n.src = z.2.src ∧ n.reaching = z.2.reaching → z.2.depth ≤ n.depth) := by
  have hagrees : ∀ n : ReachingNote, Scope.agrees (⟨"t", reachingColumns, integers n.row⟩ :: besideNote z)
      [(.of "t" "src", .of "s" "src"), (.of "t" "reaching", .of "s" "reaching")]
      = decide (n.src = z.2.src ∧ n.reaching = z.2.reaching) := fun n => by
    simp only [Scope.agrees, List.all_cons, List.all_nil, Bool.and_true, Bool.decide_and,
      Condition.agree?_integers ((find?_inner n z 0 rfl).1 rfl) ((find?_inner n z 0 rfl).2 rfl),
      Condition.agree?_integers ((find?_inner n z 2 rfl).1 rfl) ((find?_inner n z 2 rfl).2 rfl)]
    cases decide (n.src = z.2.src) <;> cases decide (n.reaching = z.2.reaching) <;> rfl
  let agreeing := notes.filter fun n => n.src = z.2.src ∧ n.reaching = z.2.reaching
  have hself : z.2 ∈ agreeing := List.mem_filter.2 ⟨hz, decide_eq_true ⟨rfl, rfl⟩⟩
  have hinner : ((db.visible (scratchPrefix ++ "sgconn") "t").filter fun v => Scope.agrees (v :: besideNote z)
      [(.of "t" "src", .of "s" "src"), (.of "t" "reaching", .of "s" "reaching")]).map
        (fun v => Scope.cell (v :: besideNote z) (.of "t" "depth")) = integers (agreeing.map ReachingNote.depth) := by
    rw [h.visible, List.map_map, List.filter_map, List.map_map, integers, List.map_map]
    simp only [Function.comp_def, hagrees]
    exact List.map_congr_left fun n _ => Scope.cell_of_find? ((find?_inner n z 3 rfl).1 rfl)
  have hne : agreeing.map ReachingNote.depth ≠ [] := List.ne_nil_of_mem (List.mem_map_of_mem hself)
  obtain ⟨m, hm, hleast, hle⟩ := Cell.least_integers hne
  have hiff : z.2.depth = m ↔ ∀ n ∈ notes, n.src = z.2.src ∧ n.reaching = z.2.reaching → z.2.depth ≤ n.depth := by
    constructor
    · rintro heq n hn hagree
      exact heq ▸ hle _ (List.mem_map_of_mem (List.mem_filter.2 ⟨hn, decide_eq_true hagree⟩))
    · intro hall
      obtain ⟨n, hn, rfl⟩ := List.mem_map.1 hm
      obtain ⟨hn, hagree⟩ := List.mem_filter.1 hn
      exact le_antisymm (hall n hn (of_decide_eq_true hagree)) (hle _ (List.mem_map_of_mem hself))
  rw [Condition.holds, Condition.holds?, hinner, hleast, Scope.cell_of_find? (find?_besideNote z 3 rfl rfl),
    Cell.equals?_integers, decide_eq_decide.2 hiff]
  cases decide (∀ n ∈ notes, n.src = z.2.src ∧ n.reaching = z.2.reaching → z.2.depth ≤ n.depth) <;> rfl

/-- A forward round leaves a vertex towards a destination by one note: it fits the bound, no note of the same vertex
and the same destination is less deep, and none that is as deep leads to a lesser vertex. -/
def Departs (notes : List ReachingNote) (maxDepth hop : Int) (u t w : Int) : Prop :=
  ∃ n ∈ notes, n.src = u ∧ n.reaching = t ∧ n.dst = w ∧ n.depth + hop ≤ maxDepth ∧
    ∀ n' ∈ notes, n'.src = u ∧ n'.reaching = t → n.depth ≤ n'.depth ∧ (n'.depth = n.depth → w ≤ n'.dst)

/-- A forward round leaves a vertex by a note, towards some destination. -/
def Chosen (notes : List ReachingNote) (maxDepth hop : Int) (u w : Int) : Prop := ∃ t, Departs notes maxDepth hop u t w

section Follow

variable {frontier next : List Int} {maxDepth hop : Int}

/-- A vertex of the frontier beside a note of it that fits the bound and is one of the least deep. -/
def Leaves (notes : List ReachingNote) (maxDepth hop : Int) (z : Int × ReachingNote) : Prop :=
  z.1 = z.2.src ∧ z.2.depth + hop ≤ maxDepth ∧
    ∀ n ∈ notes, n.src = z.2.src ∧ n.reaching = z.2.reaching → z.2.depth ≤ n.depth

instance : DecidablePred (Leaves notes maxDepth hop) := fun _ => instDecidableAnd

theorem Stands.pairs_leaving (h : Stands base frontier next reached more db) (hnoted : reachingTable notes ∈ more)
    (maxDepth hop : Int) :
    Selection.Pairs db sweepTables.frontier (scratchPrefix ++ "sgconn") "c" "s" graphColumns reachingColumns frontier
      one notes ReachingNote.row [.same (.of "c" "id") (.of "s" "src"), .atMost (.of "s" "depth") hop maxDepth,
        .leastOf (.of "s" "depth") (.of "t" "depth") (scratchPrefix ++ "sgconn") "t"
          [(.of "t" "src", .of "s" "src"), (.of "t" "reaching", .of "s" "reaching")]]
      fun z => decide (Leaves notes maxDepth hop z) := by
  have hnotes : db.HoldsIntegers (scratchPrefix ++ "sgconn") reachingColumns (notes.map ReachingNote.row) :=
    Over.holds h (reachingTable notes) (.tail _ (.tail _ (.tail _ hnoted)))
  refine ⟨h.inFrontier, hnotes, ?_, fun z hz => ?_⟩
  · simp (disch := decide) [Scope.hasColumn_of_mem, hnotes.outline, hnotes.isSome]
  · rw [List.all_cons, List.all_cons, List.all_cons, List.all_nil, Bool.and_true,
      holds_leastOf_notes hnotes (List.mem_product.1 hz).2,
      Condition.holds_same_integers ((Selection.find?_beside_left z "id").trans (find?_id _ z.1))
        (find?_besideNote z 0 rfl rfl),
      Condition.holds_atMost_integers (find?_besideNote z 3 rfl rfl), ← Bool.decide_and, ← Bool.decide_and]
    rfl

/-- A vertex of the frontier is left towards a destination by the chosen note. -/
theorem leaving_iff {u t w : Int} :
    ((∃ z ∈ (frontier ×ˢ notes).filter fun z => decide (Leaves notes maxDepth hop z),
        pair (z.2.src, z.2.reaching) = pair (u, t) ∧ z.2.dst = w) ∧
      ∀ z' ∈ (frontier ×ˢ notes).filter fun z => decide (Leaves notes maxDepth hop z),
        pair (z'.2.src, z'.2.reaching) = pair (u, t) → w ≤ z'.2.dst) ↔
    u ∈ frontier ∧ Departs notes maxDepth hop u t w := by
  have hmem : ∀ z, (z ∈ (frontier ×ˢ notes).filter fun z => decide (Leaves notes maxDepth hop z)) ↔
      (z.1 ∈ frontier ∧ z.2 ∈ notes) ∧ Leaves notes maxDepth hop z := fun z => by
    rw [List.mem_filter, decide_eq_true_eq]
    exact and_congr_left fun _ => List.mem_product
  simp only [hmem, pair_injective.eq_iff, Prod.mk.injEq, Prod.exists, Prod.forall]
  constructor
  · rintro ⟨⟨u', n, ⟨⟨hu, hn⟩, heq, hfits, hleast⟩, ⟨rfl, rfl⟩, rfl⟩, hall⟩
    obtain rfl : u' = n.src := heq
    refine ⟨hu, n, hn, rfl, rfl, rfl, hfits, fun n' hn' hagree => ⟨hleast n' hn' hagree, fun hdepth => ?_⟩⟩
    refine hall n.src n' ⟨⟨hu, hn'⟩, hagree.1.symm, hdepth ▸ hfits, fun n'' hn'' hagree' => ?_⟩ hagree
    exact hdepth ▸ hleast n'' hn'' ⟨hagree'.1.trans hagree.1, hagree'.2.trans hagree.2⟩
  · rintro ⟨hu, n, hn, rfl, rfl, rfl, hfits, hleast⟩
    refine ⟨⟨n.src, n, ⟨⟨hu, hn⟩, rfl, hfits, fun n' hn' hagree => (hleast n' hn' hagree).1⟩, ⟨rfl, rfl⟩, rfl⟩, ?_⟩
    rintro u' n' ⟨⟨-, hn'⟩, -, -, hleast'⟩ hagree
    have hle := hleast n' hn' hagree
    exact hle.2 (le_antisymm (hleast' n hn ⟨hagree.1.symm, hagree.2.symm⟩) hle.1)

/-- If no two of some pairs have the same first part, a second part stands there as often as there are first parts
that it stands with. -/
theorem count_snd {α β : Type} [DecidableEq α] [DecidableEq β] {l : List (α × β)} (h : (l.map Prod.fst).Nodup)
    (y : β) : (l.map Prod.snd).count y = {x | (x, y) ∈ l}.ncard := by
  have hset : {x | (x, y) ∈ l} = ((l.filter (·.2 = y)).map Prod.fst).toFinset := by
    ext x
    simp
  have hsub : ((l.filter (·.2 = y)).map Prod.fst).Nodup := h.sublist (List.filter_sublist.map _)
  rw [hset, Set.ncard_coe_finset, List.toFinset_card_of_nodup hsub, List.length_map, List.count, List.countP_map,
    List.countP_eq_length_filter]
  simp [Function.comp_def, beq_eq_decide]

/-- What is found when a frontier is left by the chosen notes: as often as there are vertices of the frontier and
destinations for which it is found. There are no more of these than sources in the frontier and destinations of
notes. -/
structure Departed (notes : List ReachingNote) (maxDepth hop : Int) (frontier found : List Int) : Prop where
  mem : ∀ w, w ∈ found ↔ ∃ u ∈ frontier, Chosen notes maxDepth hop u w
  counts : ∀ w, found.count w = {x : Int × Int | x.1 ∈ frontier ∧ Departs notes maxDepth hop x.1 x.2 w}.ncard
  short : ∀ keys : List (Int × Int), (∀ n ∈ notes, n.src ∈ frontier → (n.src, n.reaching) ∈ keys) →
    found.length ≤ keys.length

/-- What the frontier leaves to. -/
theorem Stands.rows_leaving (h : Stands base frontier next reached more db) (hnoted : reachingTable notes ∈ more)
    (maxDepth hop : Int) : ∃ found : List Int, Departed notes maxDepth hop frontier found ∧
      ((Selection.join [.least (.of "s" "dst")] [⟨sweepTables.frontier, some "c", []⟩,
        ⟨scratchPrefix ++ "sgconn", some "s", [.same (.of "c" "id") (.of "s" "src"),
          .atMost (.of "s" "depth") hop maxDepth,
          .leastOf (.of "s" "depth") (.of "t" "depth") (scratchPrefix ++ "sgconn") "t"
            [(.of "t" "src", .of "s" "src"), (.of "t" "reaching", .of "s" "reaching")]]⟩]).grouped
        [.of "s" "src", .of "s" "reaching"]).rows db = .ok ((found.map one).map integers) := by
  have hpairs := h.pairs_leaving hnoted maxDepth hop
  obtain ⟨groups, hnodup, hmem, hrows⟩ := Selection.rows_join_least Cell.order_integer
    (hpairs.finds [.least (.of "s" "dst")] [.of "s" "src", .of "s" "reaching"]
      (by simp (disch := decide) [Term.mentions, Scope.hasColumn_of_mem])
      (by simp (disch := decide) [Scope.hasColumn_of_mem]))
    hpairs.scopes (List.cons_ne_nil _ _) (f := fun z => pair (z.2.src, z.2.reaching)) (g := fun z => z.2.dst)
    (fun z _ => congrArg₂ (fun c d => [c, d]) (Scope.cell_of_find? (find?_besideNote z 0 rfl rfl))
      (Scope.cell_of_find? (find?_besideNote z 2 rfl rfl)))
    fun z _ => Scope.cell_of_find? (find?_besideNote z 1 rfl rfl)
  -- The groups are of a vertex of the frontier and a destination each.
  have hkey : ∀ k w, (k, w) ∈ groups ↔ ∃ x : Int × Int, pair x = k ∧ x.1 ∈ frontier ∧
      Departs notes maxDepth hop x.1 x.2 w := fun k w => by
    rw [hmem]
    constructor
    · rintro ⟨⟨z, hz, rfl, rfl⟩, hleast⟩
      exact ⟨(z.2.src, z.2.reaching), rfl, leaving_iff.1 ⟨⟨z, hz, rfl, rfl⟩, hleast⟩⟩
    · rintro ⟨⟨u, t⟩, rfl, hdeparts⟩
      exact leaving_iff.2 hdeparts
  refine ⟨groups.map Prod.snd, ⟨fun w => ?_, fun w => ?_, fun keys hkeys => ?_⟩, ?_⟩
  · simp only [List.mem_map, Prod.exists, exists_eq_right, hkey]
    constructor
    · rintro ⟨-, u, t, -, hu, hdeparts⟩
      exact ⟨u, hu, t, hdeparts⟩
    · rintro ⟨u, hu, t, hdeparts⟩
      exact ⟨_, u, t, rfl, hu, hdeparts⟩
  · have himage : {k | (k, w) ∈ groups}
        = pair '' {x | x.1 ∈ frontier ∧ Departs notes maxDepth hop x.1 x.2 w} := by
      ext k
      simp only [Set.mem_ofPred_eq, Set.mem_image, hkey]
      exact exists_congr fun x => and_comm
    rw [count_snd hnodup, himage, Set.ncard_image_of_injective _ pair_injective]
  · have hsub : groups.map Prod.fst ⊆ keys.map pair := fun k hk => by
      obtain ⟨⟨k, m⟩, hx, rfl⟩ := List.mem_map.1 hk
      obtain ⟨⟨u, t⟩, rfl, hu, n, hn, rfl, rfl, -⟩ := (hkey k m).1 hx
      exact List.mem_map_of_mem (hkeys n hn hu)
    simpa using (hnodup.subperm hsub).length_le
  · rw [hrows, List.map_map (g := one)]
    rfl

/-- A forward round follows the chosen notes of the frontier. -/
theorem leads_followNearestRound (hnoted : reachingTable notes ∈ more) (maxDepth hop : Int) :
    Leads (Stands base frontier next reached more)
      (followNearestRound sweepTables (scratchPrefix ++ "sgconn") maxDepth hop) fun db => ∃ found : List Int,
        Departed notes maxDepth hop frontier found ∧
          Stands base (found.filter (· ∉ reached)) found (reached ++ found.filter (· ∉ reached)) more db := by
  rw [followNearestRound]
  refine .append (J := fun db => ∃ found : List Int,
      Departed notes maxDepth hop frontier found ∧ Stands base frontier found reached more db) ?_
    (.exists_imp fun found _ => leads_advance)
  refine .cons (J := Stands base frontier [] reached more) (fun db hdb => Over.clear [_] hdb)
    (.single fun db hdb => ?_)
  obtain ⟨found, hfound, hrows⟩ := hdb.rows_leaving hnoted maxDepth hop
  obtain ⟨db', happly, hdb'⟩ := Over.insertFrom (l := []) [_] hdb (fun _ => rfl) hrows
  exact ⟨db', happly, found, hfound, hdb'⟩

end Follow

end Provenance.Traversal
