import Provenance.Proofs.Replies
import Provenance.Proofs.Stages

/-!
# What a program leaves alone

A program that writes only to handles that it creates leaves all other handles and the base relations
as they are: what variables stand for is the same before and after it.
-/

namespace Provenance

open Store Action Meaning Direct

/-- Handles of these names stand for the same in both databases, and the base relations are the same. -/
structure Shares (names : String → Prop) (db db' : Database) : Prop where
  holdings : ∀ name, names name → Holding.of db' name = Holding.of db name
  relations : db'.baseRelations = db.baseRelations

namespace Shares

variable {names names' : String → Prop} {db db' db'' : Database}

theorem refl (names : String → Prop) (db : Database) : Shares names db db := ⟨fun _ _ => rfl, rfl⟩

theorem trans (h : Shares names db db') (h' : Shares names' db' db'')
    (hnames : ∀ name, names name → names' name) : Shares names db db'' :=
  ⟨fun name hname => (h'.holdings name (hnames name hname)).trans (h.holdings name hname),
    h'.relations.trans h.relations⟩

theorem meaning (h : Shares names db db') {v : Value} (hv : v.IsHandle → names v.shown) :
    Meaning.of db' v = Meaning.of db v := by
  cases v with
  | graph g => exact congrArg graph (h.holdings g.name (hv (.inl rfl)))
  | metadata m => exact congrArg metadata (h.holdings m.name (hv (.inr rfl)))
  | integer n => rfl
  | text s => rfl

theorem environment (h : Shares names db db') {t : SymbolTable}
    (ht : ∀ var name, t.lookup? var = some name → names name) :
    Environment.of t db' = Environment.of t db := by
  funext var
  unfold Environment.of
  cases hvar : t.lookup? var with
  | none => rfl
  | some name => exact congrArg some (h.holdings name (ht var name hvar))

/-- Tables that are as before make up the same handles and base relations. -/
theorem of_tables (hown : ∀ name, names name → ∀ side,
      db'.table? ((⟨name⟩ : Graph).table side) = db.table? ((⟨name⟩ : Graph).table side))
    (hbase : ∀ table ∈ knownTables, db'.table? table = db.table? table) : Shares names db db' := by
  refine ⟨fun name hname => ?_, List.filterMap_congr fun table htable => by rw [hbase table htable]⟩
  exact congrArg (Holding.mk _) (funext fun side => by rw [hown name hname side])

end Shares

/-! ## Tables that a program does not touch -/

theorem not_isScratch_of_mem_knownTables {table : String} (ht : table ∈ knownTables) : ¬ IsScratch table := by
  simp only [knownTables, Side.all, List.map_cons, List.map_nil, List.cons_append, List.nil_append,
    List.mem_cons, List.not_mem_nil, or_false] at ht
  obtain rfl | rfl | rfl | rfl := ht <;> decide

namespace Program

variable {p : Program} (hp : ∀ handle, p.Creates handle → IsOwn handle)

include hp

theorem not_touches_table {name : String} (hname : IsOwn name) (hnew : ¬ p.Creates name) (side : Side) :
    ¬ p.Touches ((⟨name⟩ : Graph).table side) := by
  have hlower := Graph.isLower_table (g := ⟨name⟩) hname.isLower side
  rintro (⟨table, htable, hsame⟩ | ⟨handle, side', hhandle, hsame⟩)
  · exact Cast.ne_table_of_isScratch htable hname side (eq_of_sameName htable.2 hlower hsame)
  · have heq := eq_of_sameName (Graph.isLower_table (g := ⟨handle⟩) (hp handle hhandle).isLower side')
      hlower hsame
    rw [← (Graph.table_eq_iff.1 heq).1] at hnew
    exact hnew hhandle

theorem not_touches_knownTable {table : String} (ht : table ∈ knownTables) : ¬ p.Touches table := by
  have hlower := Cast.isLower_of_mem_knownTables ht
  rintro (⟨scratch, hscratch, hsame⟩ | ⟨handle, side, hhandle, hsame⟩)
  · rw [eq_of_sameName hscratch.2 hlower hsame] at hscratch
    exact not_isScratch_of_mem_knownTables ht hscratch
  · exact Cast.ne_table_of_mem_knownTables ht (hp handle hhandle) side
      (eq_of_sameName (Graph.isLower_table (g := ⟨handle⟩) (hp handle hhandle).isLower side) hlower
        hsame).symm

theorem shares_of_confined {names : String → Prop} {db db' : Database} (h : Confined p.Touches db db')
    (hnames : ∀ name, names name → IsOwn name ∧ ¬ p.Creates name) : Shares names db db' :=
  .of_tables (fun name hname side =>
    h.others _ (not_touches_table hp (hnames name hname).1 (hnames name hname).2 side))
    fun _ htable => h.others _ (not_touches_knownTable hp htable)

end Program

variable {σ : Type} {b : Backend σ} {view : σ → Database}

theorem Program.replies_preserves {I : σ → Prop} {p : Program} (h : ∀ i ∈ p, Preserves I (i.execute b)) :
    Preserves I (Program.replies b p) := by
  induction p with
  | nil => exact .pure _
  | cons i p ih =>
    exact (h i List.mem_cons_self).bind fun _ => (ih fun j hj => h j (List.mem_cons_of_mem i hj)).bind
      fun _ => .pure _

section Replies

variable {fails : Prop} (hb : b.IsDatabase view fails) {p : Program} {s t : σ} {answers : List Answer}
  (h : p.Replies b s answers t) (horderly : ∀ i ∈ p, i.IsOrderly)
include hb h horderly

/-- A program that writes to what it creates changes no other tables. -/
theorem Program.Replies.confined (htargets : ∀ i ∈ p, ∀ name ∈ i.target?, p.Creates name) :
    Confined p.Touches (view s) (view t) := by
  have hconfined := Program.replies_preserves (I := fun s' => Confined p.Touches (view s) (view s'))
    (fun i hi => i.execute_confined hb (horderly i hi) (htargets i hi)) s (.refl _ _)
  rw [h] at hconfined
  exact hconfined

omit hb h in
theorem Program.isOwn_of_creates {handle : String} (hhandle : p.Creates handle) : IsOwn handle := by
  obtain hi | hi := hhandle
  · exact .inr ((horderly _ hi).2 _ rfl)
  · exact .inr ((horderly _ hi).2 _ rfl)

/-- It leaves other handles alone. -/
theorem Program.Replies.shares (htargets : ∀ i ∈ p, ∀ name ∈ i.target?, p.Creates name) {names : String → Prop}
    (hnames : ∀ name, names name → IsOwn name ∧ ¬ p.Creates name) : Shares names (view s) (view t) :=
  Program.shares_of_confined (fun _ => Program.isOwn_of_creates horderly) (h.confined hb horderly htargets) hnames

end Replies

end Provenance
