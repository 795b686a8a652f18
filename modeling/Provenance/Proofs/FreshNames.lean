import Provenance.Proofs.Allocations
import Provenance.Proofs.Histories

/-!
# Names that are given out once

A history of a store is followed statement by statement: what variables are bound to before a
statement, and the names that are allocated for it. The numbers of allocated names go on from the
stored counter, and no variable ever has a name with a larger number. So no name is allocated that a
variable has or had, or that was allocated before.
-/

namespace Provenance

open Store Database SymbolTable Workspace

/-- What variables are bound to at some time, and the names that are allocated then. -/
structure Allocation where
  bound : String → Prop
  names : List String

/-- The names of some allocations, in order. -/
def allocatedNames (as : List Allocation) : List String := as.flatMap Allocation.names

@[simp] theorem allocatedNames_cons (a : Allocation) (as : List Allocation) :
    allocatedNames (a :: as) = a.names ++ allocatedNames as := rfl

@[simp] theorem allocatedNames_append (as bs : List Allocation) :
    allocatedNames (as ++ bs) = allocatedNames as ++ allocatedNames bs := List.flatMap_append

/-! ## Numbers that ascend -/

/-- The `k` numbers after `c`. -/
def following (c : Int) (k : Nat) : List Int := (List.range k).map fun j => c + (j + 1 : Nat)

theorem length_following (c : Int) (k : Nat) : (following c k).length = k := by simp [following]

theorem mem_following {c n : Int} {k : Nat} (h : n ∈ following c k) : c < n ∧ n ≤ c + k := by
  obtain ⟨j, hj, rfl⟩ := List.mem_map.1 h
  have := List.mem_range.1 hj
  omega

theorem following_add (c : Int) (j k : Nat) :
    following c (j + k) = following c j ++ following (c + j) k := by
  rw [following, List.range_add, List.map_append, List.map_map]
  refine congrArg _ (List.map_congr_left fun i _ => ?_)
  simp only [Function.comp_apply]
  omega

theorem following_pairwise (c : Int) (k : Nat) : (following c k).Pairwise (· < ·) := by
  rw [following, List.pairwise_map]
  exact List.pairwise_lt_range.imp fun h => by omega

/-- As long as they are words, the numbers that are given out follow each other. -/
theorem numbersAfter_eq_following {c : Int} (hc : Text.isWord c = true) {k : Nat}
    (h : c + k < 2 ^ 63) : numbersAfter c k = following c k := by
  induction k with
  | zero => rfl
  | succ k ih =>
    have hlast := Resolution.iterate_wordAfter (j := k + 1) hc h
    rw [Function.iterate_succ_apply'] at hlast
    push_cast at h
    rw [numbersAfter_add, following_add, ih (by omega)]
    refine congrArg _ ?_
    simp only [numbersAfter, following, List.iterate, hlast]
    simp [List.range_succ]
    omega

/-- The names have the numbers after `c`, one after the other. -/
def Consecutive (c : Int) (names : List String) : Prop :=
  List.Forall₂ IsNumbered (following c names.length) names

namespace Consecutive

variable {c : Int} {names names' : List String}

theorem nil (c : Int) : Consecutive c [] := List.Forall₂.nil

theorem append (h : Consecutive c names) (h' : Consecutive (c + names.length) names') :
    Consecutive c (names ++ names') := by
  rw [Consecutive, List.length_append, following_add]
  exact List.rel_append h h'

theorem of_append (h : Consecutive c (names ++ names')) : Consecutive (c + names.length) names' := by
  rw [Consecutive, List.length_append, following_add] at h
  have hdrop := List.forall₂_drop names.length h
  rwa [List.drop_left' (length_following _ _), List.drop_left' rfl] at hdrop

theorem number {name : String} (h : Consecutive c names) (hname : name ∈ names) :
    ∃ n, c < n ∧ n ≤ c + names.length ∧ IsNumbered n name := by
  have hmem : ∀ {numbers : List Int} {names : List String}, List.Forall₂ IsNumbered numbers names →
      name ∈ names → ∃ n ∈ numbers, IsNumbered n name := by
    intro numbers names h hname
    induction h with
    | nil => cases hname
    | cons hn _ ih =>
      rcases List.mem_cons.1 hname with rfl | hname
      · exact ⟨_, List.mem_cons_self, hn⟩
      · obtain ⟨n, hmem, hn⟩ := ih hname
        exact ⟨n, List.mem_cons_of_mem _ hmem, hn⟩
  obtain ⟨n, hn, hnumber⟩ := hmem h hname
  exact ⟨n, (mem_following hn).1, (mem_following hn).2, hnumber⟩

theorem nodup (h : Consecutive c names) : names.Nodup := by
  induction names generalizing c with
  | nil => exact List.nodup_nil
  | cons name names ih =>
    have hsplit : Consecutive c ([name] ++ names) := h
    have hrest : Consecutive (c + 1) names := of_append hsplit
    refine List.nodup_cons.2 ⟨fun hmem => ?_, ih hrest⟩
    obtain ⟨n, hn, -, hnumber⟩ := hrest.number hmem
    rw [Consecutive, List.length_cons, Nat.add_comm, following_add] at h
    obtain ⟨hfirst, -⟩ := List.forall₂_cons.1 h
    have := hfirst.eq hnumber
    simp at this
    omega

end Consecutive

/-- No variable has a name with a number over the counter, and the names that are allocated have the
numbers that follow. -/
def Ascends : Int → List Allocation → Prop
  | _, [] => True
  | c, a :: as => (∀ name n, a.bound name → IsNumbered n name → n ≤ c) ∧
      Consecutive c a.names ∧ Ascends (c + a.names.length) as

namespace Ascends

variable {c : Int} {as bs : List Allocation}

theorem append (h : Ascends c as) (h' : Ascends (c + (allocatedNames as).length) bs) :
    Ascends c (as ++ bs) := by
  induction as generalizing c with
  | nil => simpa [allocatedNames] using h'
  | cons a as ih =>
    obtain ⟨hbound, hnumbers, hrest⟩ := h
    refine ⟨hbound, hnumbers, ih hrest ?_⟩
    rw [allocatedNames_cons, List.length_append] at h'
    push_cast at h'
    rwa [Int.add_assoc]

theorem of_append (h : Ascends c (as ++ bs)) : Ascends (c + (allocatedNames as).length) bs := by
  induction as generalizing c with
  | nil => simpa [allocatedNames] using h
  | cons a as ih =>
    have := ih h.2.2
    rw [allocatedNames_cons, List.length_append]
    push_cast
    rwa [← Int.add_assoc]

theorem consecutive (h : Ascends c as) : Consecutive c (allocatedNames as) := by
  induction as generalizing c with
  | nil => exact .nil c
  | cons a as ih => exact h.2.1.append (ih h.2.2)

/-- From any time on, no name is allocated that a variable has at that time. -/
theorem not_bound {a : Allocation} (h : Ascends c (as ++ a :: bs)) {name : String}
    (hname : name ∈ a.names ++ allocatedNames bs) : ¬ a.bound name := by
  intro hbound
  have hlater := h.of_append
  obtain ⟨n, hn, -, hnumber⟩ := hlater.consecutive.number hname
  have := hlater.1 name n hbound hnumber
  omega

end Ascends

/-! ## Statement by statement -/

namespace Draft

variable {σ : Type}

/-- Some variable of the draft has this name. -/
def Binds (d : Draft σ) (name : String) : Prop :=
  ∃ var, d.workspace.symbols.lookup? var = some name

variable {c : Int} {d : Draft σ}

/-- The names of a program have the numbers that were given out, as long as these are words. -/
theorem Allocates.consecutive (h : d.Allocates c) (hc : Text.isWord c = true)
    (hroom : c + (Program.creations d.program).length < 2 ^ 63) :
    Consecutive c (Program.creations d.program) := by
  rw [Consecutive, ← numbersAfter_eq_following hc hroom]
  exact h.numbers

/-- Variables have names that were known, with numbers up to the counter, and names with numbers that
were given out. -/
theorem Allocates.number_of_binds (h : d.Allocates c) (hc : Text.isWord c = true)
    (hroom : c + (Program.creations d.program).length < 2 ^ 63) {known : String → Prop}
    (hbase : known Graph.base.name) (hknown : ∀ name n, known name → IsNumbered n name → n ≤ c)
    (htraced : d.Traced known) {name : String} {n : Int} (hname : d.Binds name)
    (hn : IsNumbered n name) : n ≤ c + (Program.creations d.program).length := by
  obtain ⟨var, hvar⟩ := hname
  rcases htraced.lookup? hbase hvar with hold | hnew
  · have := hknown name n hold hn
    omega
  · obtain ⟨m, -, hm, hnumber⟩ := (h.consecutive hc hroom).number (Program.mem_creations.2 hnew)
    rw [hn.eq hnumber]
    exact hm

end Draft

namespace Resolution

open Draft

variable {σ : Type} {b : Backend σ}

/-- What variables are bound to before each statement, and the names that are allocated for it, up to
the first statement that fails. -/
def allocations (b : Backend σ) : List Query.Statement → Draft σ → List Allocation
  | [], d => [⟨d.Binds, []⟩]
  | s :: ss, d =>
    ⟨d.Binds, (Program.creations ((statement b s).runFrom d).2.program).drop
        (Program.creations d.program).length⟩ ::
      match ((statement b s).runFrom d).1 with
      | .ok _ => allocations b ss ((statement b s).runFrom d).2
      | .error _ => []

/-- A statement adds its names at the end. -/
theorem creations_statement (s : Query.Statement) (d : Draft σ) :
    Program.creations ((statement b s).runFrom d).2.program = Program.creations d.program ++
      (Program.creations ((statement b s).runFrom d).2.program).drop
        (Program.creations d.program).length := by
  obtain ⟨k, more, -, -, hprogram, -⟩ := statement_spends (b := b) s d
  rw [hprogram, Program.creations_append, List.drop_left' rfl]

theorem creations_statements (ss : List Query.Statement) (d : Draft σ) :
    Program.creations ((ss.forM (statement b)).runFrom d).2.program
      = Program.creations d.program ++ allocatedNames (allocations b ss d) := by
  induction ss generalizing d with
  | nil => simp [allocations, allocatedNames]
  | cons s ss ih =>
    have hadds := creations_statement (b := b) s d
    rw [Action.forM_cons, Action.runFrom_bind, allocations, allocatedNames_cons]
    generalize (statement b s).runFrom d = x at hadds
    obtain ⟨result, d'⟩ := x
    cases result with
    | error e => simpa [allocatedNames] using hadds
    | ok _ =>
      dsimp only at hadds ⊢
      rw [ih, ← List.append_assoc, ← hadds]

/-- With numbers up to the counter at first, the names ascend from statement to statement. -/
theorem ascends_allocations {known : String → Prop} (hbase : known Graph.base.name) {c : Int}
    (hc : Text.isWord c = true) (hknown : ∀ name n, known name → IsNumbered n name → n ≤ c)
    {ss : List Query.Statement} {d : Draft σ} (hallocates : d.Allocates c) (htraced : d.Traced known)
    (hroom : c + (Program.creations d.program).length
      + (allocatedNames (allocations b ss d)).length < 2 ^ 63) :
    Ascends (c + (Program.creations d.program).length) (allocations b ss d) := by
  have hbound : ∀ name n, d.Binds name → IsNumbered n name →
      n ≤ c + (Program.creations d.program).length := fun name n hname hn =>
    hallocates.number_of_binds hc (by omega) hbase hknown htraced hname hn
  induction ss generalizing d with
  | nil => exact ⟨hbound, .nil _, trivial⟩
  | cons s ss ih =>
    have hadds := creations_statement (b := b) s d
    have hallocates' := statement_allocates (b := b) c s d hallocates
    have hlength := congrArg List.length hadds
    rw [List.length_append] at hlength
    rw [allocations] at hroom ⊢
    rw [allocatedNames_cons, List.length_append] at hroom
    push_cast at hroom
    have hnew : Consecutive (c + (Program.creations d.program).length)
        ((Program.creations ((statement b s).runFrom d).2.program).drop
          (Program.creations d.program).length) := by
      refine Consecutive.of_append ?_
      rw [← hadds]
      exact hallocates'.consecutive hc (by omega)
    refine ⟨hbound, hnew, ?_⟩
    cases hresult : ((statement b s).runFrom d).1 with
    | error e => trivial
    | ok _ =>
      have htraced' := statement_traced hbase htraced (Prod.ext hresult rfl)
      rw [hresult] at hroom
      dsimp only at hroom ⊢
      have hsum : c + (Program.creations d.program).length
          + ((Program.creations ((statement b s).runFrom d).2.program).drop
            (Program.creations d.program).length).length
          = c + (Program.creations ((statement b s).runFrom d).2.program).length := by omega
      rw [← Int.add_assoc, hsum] at hroom
      rw [hsum]
      exact ih hallocates' htraced' (by omega) fun name n hname hn =>
        hallocates'.number_of_binds hc (by omega) hbase hknown htraced' hname hn

end Resolution

/-! ## Resolving and executing a query -/

namespace Resolution

variable {σ : Type} {b : Backend σ} {view : σ → Database} {w : Workspace σ}

/-- Over a store that does not fail, resolution stores the last number that was given out. The names
that are stored then were known or are created by the program. -/
theorem resolve_stores (hb : b.IsDatabase view False) {known : String → Prop}
    (hbase : known Graph.base.name) (hmirrors : w.Mirrors view known) (hcounts : w.Counts view)
    {ss : List Query.Statement} (hss : ∀ s ∈ ss, s.assigned? ≠ some counterKey) {result : Except QueryError Unit}
    {d : Draft σ} (hd : (ss.forM (statement b)).runFrom ⟨w, []⟩ = (result, d)) :
    storedCounter? (view ((resolve b ss).runFrom w).2.store) = some d.workspace.symbols.counter ∧
      ∀ var name, storedName? (view ((resolve b ss).runFrom w).2.store) var = some name →
        known name ∨ Program.Creates d.program name := by
  have htrue := statements_mirrors hb admits_true ss ⟨w, []⟩ (hmirrors.mono fun _ _ => trivial)
  have hcounted := statements_counts hb hss ⟨w, []⟩ hcounts
  have hsame := statements_storedName? hb (storedName? (view w.store)) ss ⟨w, []⟩
    ⟨hmirrors.keeps.imp fun _ hk => hk.1, fun _ => rfl⟩
  rw [hd] at htrue hcounted hsame
  obtain ⟨d', hd', -, hrun⟩ | ⟨e, d', hd', -, hw, -⟩ := resolve_cases b ss w
  · rw [hd] at hd'
    cases hd'
    have htraced : d.Traced known := statements_induction (fun s _ _ _ => statement_traced hbase)
      ⟨fun var name hname => .inl (hmirrors.onlyBound var name hname), by simp⟩ hd
    obtain ⟨-, -, hagrees, hok, hbindings⟩ := htrue.commit hb
    rw [hrun]
    refine ⟨Counts.commit_reliable hb hcounted, fun var name hname => ?_⟩
    have hvar : var ≠ counterKey := by
      rintro rfl
      simp [storedName?] at hname
    rw [← hagrees (hok id) var hvar, hbindings] at hname
    exact htraced.names var name hname
  · rw [hd] at hd'
    cases hd'
    have hv := (htrue.discard hb).1
    rw [hw, hv]
    refine ⟨hcounted.counter, fun var name hname => .inl ?_⟩
    rw [hsame.2] at hname
    exact hmirrors.onlyStored var name hname

end Resolution

namespace Session

variable {σ : Type} {b : Backend σ} {view : σ → Database}

/-- What variables are bound to before each statement of a query, and the names that are allocated
for it. -/
def allocations (b : Backend σ) (query : String) (s : σ) : List Allocation :=
  match Query.parse query, (load b).runFrom s with
  | .ok ss, (.ok t, s') => Resolution.allocations b ss ⟨⟨t, s'⟩, []⟩
  | _, _ => []

/-- The stored bindings can be read, the counter is `c`, and no variable has a name with a larger
number. -/
structure CountsTo (c : Int) (db : Database) : Prop where
  intact : Intact db
  counter : storedCounter? db = some c
  numbered : ∀ name n, Names db name → IsNumbered n name → n ≤ c

theorem CountsTo.congr {c : Int} {db db' : Database} (h : CountsTo c db) (hintact : Intact db')
    (hcounter : storedCounter? db' = storedCounter? db)
    (hnames : ∀ var, storedName? db' var = storedName? db var) : CountsTo c db' := by
  refine ⟨hintact, hcounter.trans h.counter, fun name n hname => h.numbered name n ?_⟩
  exact hname.imp_right fun ⟨var, hvar⟩ => ⟨var, hnames var ▸ hvar⟩

theorem CountsTo.of_relation {c : Int} {db db' : Database} (h : CountsTo c db)
    (hrelation : db'.table? relation = db.table? relation) : CountsTo c db' := by
  refine h.congr (h.intact.imp (fun hnone => by rw [hrelation, hnone]) fun ⟨entries, hk⟩ =>
    ⟨entries, hk.congr hrelation⟩) (storedCounter?_congr hrelation) (storedName?_congr hrelation)

theorem allocations_of_beforeCollection?_none {query : String} {s : σ}
    (hw : beforeCollection? b query s = none) : allocations b query s = [] := by
  rw [allocations]
  split
  · next ss t s' hparse hload =>
    rw [beforeCollection?, hparse] at hw
    simp only [hload] at hw
    cases hw
  · rfl

/-- Resolution gives out the numbers after the counter, statement by statement, and stores the last one. -/
theorem CountsTo.resolved (hb : b.IsDatabase view False) {query : String} {ss : List Query.Statement}
    (hparse : Query.parse query = .ok ss) {s s' : σ} {symbols : SymbolTable}
    (hload : (load b).runFrom s = (.ok symbols, s')) {c : Int} (h : CountsTo c (view s))
    (hroom : c + (allocatedNames (Resolution.allocations b ss ⟨⟨symbols, s'⟩, []⟩)).length < 2 ^ 63) :
    storedCounter? (view ((Resolution.resolve b ss).runFrom ⟨symbols, s'⟩).2.store)
        = some (c + (allocatedNames (Resolution.allocations b ss ⟨⟨symbols, s'⟩, []⟩)).length) ∧
      (∀ name n, Names (view ((Resolution.resolve b ss).runFrom ⟨symbols, s'⟩).2.store) name → IsNumbered n name →
        n ≤ c + (allocatedNames (Resolution.allocations b ss ⟨⟨symbols, s'⟩, []⟩)).length) ∧
      Ascends c (Resolution.allocations b ss ⟨⟨symbols, s'⟩, []⟩) := by
  have hword := isWord_of_storedCounter? h.counter
  obtain rfl : c = symbols.counter := by
    have := (load_storedCounter? hb h.intact).2 symbols (by rw [hload])
    rw [h.counter] at this
    exact Option.some.inj this
  have hmirrors : Workspace.Mirrors view (Names (view s)) ⟨symbols, s'⟩ :=
    mirrors_load hb h.intact (fun var name hname => .inr ⟨var, hname⟩) hload
  have hempty : Draft.Allocates symbols.counter (⟨⟨symbols, s'⟩, []⟩ : Draft σ) :=
    .empty ⟨symbols, s'⟩
  have hallocates := Resolution.statements_allocates (b := b) symbols.counter ss _ hempty
  have hcreations := Resolution.creations_statements (b := b) ss ⟨⟨symbols, s'⟩, []⟩
  generalize hd : (ss.forM (Resolution.statement b)).runFrom ⟨⟨symbols, s'⟩, []⟩ = x
    at hallocates hcreations
  obtain ⟨result, d⟩ := x
  rw [show Program.creations (⟨⟨symbols, s'⟩, []⟩ : Draft σ).program = [] from rfl,
    List.nil_append] at hcreations
  rw [← hcreations] at hroom ⊢
  obtain ⟨hcounter, hnames⟩ := Resolution.resolve_stores hb (.inl rfl) hmirrors
    (counts_load hb h.intact hload)
    (fun st hst => Query.assigned?_ne_counterKey (Query.isReadable_of_parse hparse st hst)) hd
  refine ⟨?_, fun name n hname hn => ?_, ?_⟩
  · rw [hcounter, hallocates.counter, Resolution.iterate_wordAfter hword hroom]
  · rcases hname with rfl | ⟨var, hvar⟩
    · exact (not_isNumbered_base n hn).elim
    · rcases hnames var name hvar with hold | hnew
      · have := h.numbered name n hold hn
        omega
      · obtain ⟨m, -, hm, hnumber⟩ :=
          (hallocates.consecutive hword hroom).number (Program.mem_creations.2 hnew)
        rw [hn.eq hnumber]
        exact hm
  · have hascends : _ → Ascends _ (Resolution.allocations b ss ⟨⟨symbols, s'⟩, []⟩) :=
      Resolution.ascends_allocations (.inl rfl) hword h.numbered hempty
      ⟨fun var name hname => .inl (hmirrors.onlyBound var name hname), by simp⟩
    rw [hcreations] at hroom
    simpa [Program.creations] using hascends (by simpa [Program.creations] using hroom)

/-- A query gives out the numbers after the counter, statement by statement, and stores the last one. -/
theorem CountsTo.executed (hb : b.IsDatabase view False) {query : String}
    (hplain : Query.IsPlain query) {s : σ} {c : Int} (h : CountsTo c (view s))
    (hroom : c + (allocatedNames (allocations b query s)).length < 2 ^ 63) :
    CountsTo (c + (allocatedNames (allocations b query s)).length)
        (view ((execute b query).runFrom s).2) ∧
      Ascends c (allocations b query s) := by
  cases hw : beforeCollection? b query s with
  | none =>
    obtain ⟨hintact, hnames, hcounter, -⟩ := execute_of_beforeCollection?_none hb h.intact hw
    rw [allocations_of_beforeCollection?_none hw]
    have := h.congr hintact hcounter hnames
    exact ⟨by simpa [allocatedNames] using this, trivial⟩
  | some w =>
    have hkeeps := beforeCollection?_keeps hb hplain h.intact hw
    obtain ⟨ss, symbols, s', hparse, hload, rfl, hafter⟩ := beforeCollection?_some hw
    have heq : allocations b query s = Resolution.allocations b ss ⟨⟨symbols, s'⟩, []⟩ := by
      simp only [allocations, hparse, hload]
    rw [heq] at hroom ⊢
    obtain ⟨hcounter, hnumbered, hascends⟩ := h.resolved hb hparse hload hroom
    -- neither the program nor the collection changes the bindings
    have hcollected := (collect_confined hb ((resolveAndRun b ss).runFrom ⟨symbols, s'⟩).2).others
      relation fun hc => hc rfl
    have hbindings := (resolveAndRun_bindings hb (hplain ss hparse) ⟨symbols, s'⟩).2
    exact ⟨CountsTo.of_relation ⟨.inr (hkeeps.imp fun _ hk => hk.congr hbindings.symm), hcounter, hnumbered⟩
      (hafter ▸ hcollected.trans hbindings), hascends⟩

/-! ## Histories -/

/-- The base relations are added without touching that of the bindings. -/
theorem table?_relation_install (db : Database) :
    (Storage.install db).table? relation = db.table? relation := by
  have hother : ∀ t ∈ Storage.baseTables, sameName t.name relation = false := by decide +kernel
  rw [Storage.install]
  generalize Storage.baseTables = tables at hother
  induction tables generalizing db with
  | nil => rfl
  | cons t tables ih =>
    have ht := hother t List.mem_cons_self
    rw [List.foldl_cons, ih _ fun u hu => hother u (List.mem_cons_of_mem t hu), Storage.installTable]
    split
    · rw [table?_add, ht]
      simp
    · next found hfound =>
      have hname := table?_name hfound
      rw [table?_replace, if_neg]
      rw [sameName_congr hname, ht]
      simp

/-- One step in the life of a store that does not fail, and what is allocated then: a query, however it
ends, a session that loads the symbol table, a collection, opening the store again, or the recording of
a vertex, an edge or an annotation. Each may go through another connection to the store. -/
inductive Happens : Database → List Allocation → Database → Prop
  | query {σ : Type} {b : Backend σ} {view : σ → Database} (hb : b.IsDatabase view False)
      {text : String} (hplain : Query.IsPlain text) (s : σ) :
      Happens (view s) (allocations b text s) (view ((execute b text).runFrom s).2)
  | session {σ : Type} {b : Backend σ} {view : σ → Database} (hb : b.IsDatabase view False) (s : σ) :
      Happens (view s) [] (view ((symbols b).runFrom s).2)
  | collection {σ : Type} {b : Backend σ} {view : σ → Database} (hb : b.IsDatabase view False)
      (s : σ) : Happens (view s) [] (view ((collectGarbage b).runFrom s).2)
  | reopened (db : Database) : Happens db [] (Storage.install db)
  | recorded {db db' : Database} {st : Statement} {answer : Option (List Row)}
      (hst : IsBaseInsertion st) (happly : db.apply st = .ok (db', answer)) : Happens db [] db'

/-- A history of a store, and what was allocated in it; before each step stand the names that are
stored then. -/
inductive Course (first : Database) : List Allocation → Database → Prop
  | start : Course first [] first
  | step {past as : List Allocation} {db db' : Database} (h : Course first past db)
      (hstep : Happens db as db') : Course first (past ++ ⟨Names db, []⟩ :: as) db'

theorem Happens.ascends {db db' : Database} {as : List Allocation} (hstep : Happens db as db') {c : Int}
    (h : CountsTo c db) (hroom : c + (allocatedNames as).length < 2 ^ 63) :
    CountsTo (c + (allocatedNames as).length) db' ∧ Ascends c as := by
  cases hstep with
  | query hb hplain s => exact h.executed hb hplain hroom
  | session hb s =>
    obtain ⟨t, s', entries, hload, hk, -, -, -, hnames, hcounter⟩ :=
      load_reliable hb h.intact (by rw [h.counter]; rfl)
    rw [symbols, Action.runFrom_bind_ok hload]
    exact ⟨by simpa [allocatedNames] using h.congr (.inr ⟨entries, hk⟩) hcounter hnames, trivial⟩
  | @collection _ b view hb s =>
    obtain ⟨t, s', entries, hload, hk, -, -, -, hnames, hcounter⟩ :=
      load_reliable hb h.intact (by rw [h.counter]; rfl)
    have hrelation := (collect_confined hb ⟨t, s'⟩).others relation fun hc => hc rfl
    have hrun : ((collectGarbage b).runFrom s).2 = ((collect b).runFrom ⟨t, s'⟩).2.store := by
      simp only [collectGarbage, withSymbols, Action.runFrom_of, hload]
    rw [hrun]
    refine ⟨?_, trivial⟩
    simpa [allocatedNames] using
      (h.congr (.inr ⟨entries, hk⟩) hcounter hnames).of_relation hrelation
  | reopened => exact ⟨by simpa [allocatedNames] using h.of_relation (table?_relation_install db), trivial⟩
  | recorded hst happly =>
    exact ⟨by simpa [allocatedNames] using h.of_relation (hst.table?_relation happly), trivial⟩

theorem Course.ascends {first db : Database} {past : List Allocation} (h : Course first past db)
    {c : Int} (hfirst : CountsTo c first) (hroom : c + (allocatedNames past).length < 2 ^ 63) :
    CountsTo (c + (allocatedNames past).length) db ∧ Ascends c past := by
  induction h with
  | start => exact ⟨by simpa [allocatedNames] using hfirst, trivial⟩
  | @step past as db db' h hstep ih =>
    rw [allocatedNames_append, allocatedNames_cons, List.nil_append, List.length_append] at hroom ⊢
    push_cast at hroom ⊢
    obtain ⟨hcounts, hascends⟩ := ih (by omega)
    obtain ⟨hcounts', hascends'⟩ := hstep.ascends hcounts (by omega)
    refine ⟨by rwa [← Int.add_assoc], hascends.append ⟨hcounts.numbered, .nil _, ?_⟩⟩
    simpa using hascends'

/-- Over a whole history, the names that are allocated have ascending numbers, each once, as long as
the counter is not too large for a word; the counter tells how many there were. From any time on, no
name is allocated that a variable has then, in the store or in memory. -/
theorem fresh_names {first db : Database} {past : List Allocation} (h : Course first past db)
    {c : Int} (hfirst : CountsTo c first) (hroom : c + (allocatedNames past).length < 2 ^ 63) :
    storedCounter? db = some (c + (allocatedNames past).length) ∧
      (∃ numbers : List Int, List.Forall₂ IsNumbered numbers (allocatedNames past) ∧
        numbers.Pairwise (· < ·) ∧ ∀ n ∈ numbers, c < n) ∧
      (allocatedNames past).Nodup ∧
      ∀ earlier a later, past = earlier ++ a :: later →
        ∀ name ∈ a.names ++ allocatedNames later, ¬ a.bound name := by
  obtain ⟨hcounts, hascends⟩ := h.ascends hfirst hroom
  refine ⟨hcounts.counter, ⟨_, hascends.consecutive, following_pairwise _ _,
    fun n hn => (mem_following hn).1⟩, hascends.consecutive.nodup, ?_⟩
  rintro earlier a later rfl name hname
  exact hascends.not_bound hname

/-! ## A history with a reset that is taken back -/

theorem countsTo_fresh : CountsTo 0 Storage.fresh := by
  refine ⟨.inl rfl, rfl, fun name n hname hn => ?_⟩
  rcases hname with rfl | ⟨var, hvar⟩
  · exact (not_isNumbered_base n hn).elim
  · rw [storedName?_fresh] at hvar
    cases hvar

/-- A query after which nothing is to be collected leaves what it leaves before the collection. -/
theorem execute_memory_of_kept {query : String} {db : Database} {w : Workspace Database}
    (hw : beforeCollection? Backend.memory query db = some w)
    (hkept : ∀ t ∈ w.store.tables, w.symbols.isCollected t.name = false) :
    ((execute Backend.memory query).runFrom db).2 = w.store := by
  have hnone : collected w.symbols w.store = [] := by
    refine List.filter_eq_nil_iff.2 fun name hname => ?_
    obtain ⟨⟨t, ht, rfl⟩, -⟩ := mem_tableNames.1 hname
    simp [hkept t ht]
  rw [execute_memory hw, hnone]
  rfl

/-- The store of a variable that is bound to the graph of one vertex. -/
def firstStore : Database :=
  ((beforeCollection? Backend.memory "$a = vertices(1)" Storage.fresh).map Workspace.store).getD .empty

theorem execute_firstStore :
    ((execute Backend.memory "$a = vertices(1)").runFrom Storage.fresh).2 = firstStore := by
  have hkept : (beforeCollection? Backend.memory "$a = vertices(1)" Storage.fresh).map
      (fun w => w.store.tables.all fun t => !w.symbols.isCollected t.name) = some true := by
    decide +kernel
  obtain ⟨w, hw, hall⟩ := Option.map_eq_some_iff.1 hkept
  rw [List.all_eq_true] at hall
  rw [firstStore, hw, execute_memory_of_kept hw fun t ht => by simpa using hall t ht]
  rfl

/-- After the reset a variable is bound anew, before the query fails. -/
def resetQuery : String := "$a += vertices(2)\nreset environment\n$a = vertices(3)\nstat $nope"

theorem Happens.query_memory {text : String} (hplain : Query.IsPlain text) (db : Database) :
    Happens db (allocations Backend.memory text db) ((execute Backend.memory text).runFrom db).2 :=
  .query Backend.isDatabase_memory hplain db

theorem fresh_names_resetQuery :
    ∃ past db, Course Storage.fresh past db ∧ CountsTo 0 Storage.fresh ∧
      allocatedNames past = ["trace_1", "trace_2", "trace_3", "trace_4"] ∧
      storedCounter? db = some 4 ∧ (allocatedNames past).Nodup ∧
      ∀ earlier a later, past = earlier ++ a :: later →
        ∀ name ∈ a.names ++ allocatedNames later, ¬ a.bound name := by
  have hbound := Happens.query_memory (show Query.IsPlain "$a = vertices(1)" by decide +kernel) Storage.fresh
  rw [execute_firstStore] at hbound
  have hreset := Happens.query_memory (show Query.IsPlain resetQuery by decide +kernel)
    (Storage.install firstStore)
  have hnames : allocatedNames (allocations Backend.memory "$a = vertices(1)" Storage.fresh)
      ++ allocatedNames (allocations Backend.memory resetQuery (Storage.install firstStore))
      = ["trace_1", "trace_2", "trace_3", "trace_4"] := by decide +kernel
  obtain ⟨past, db, hcourse, hpast⟩ : ∃ past db, Course Storage.fresh past db ∧
      allocatedNames past = ["trace_1", "trace_2", "trace_3", "trace_4"] := by
    refine ⟨_, _, ((Course.start.step hbound).step (.reopened firstStore)).step hreset, ?_⟩
    simp only [allocatedNames_append, allocatedNames_cons, List.nil_append, List.append_nil,
      show allocatedNames [] = [] from rfl]
    exact hnames
  obtain ⟨hcounter, -, hnodup, hfree⟩ := fresh_names hcourse countsTo_fresh (by rw [hpast]; decide)
  rw [hpast] at hcounter
  exact ⟨past, db, hcourse, countsTo_fresh, hpast, hcounter, hnodup, hfree⟩

end Session

end Provenance
