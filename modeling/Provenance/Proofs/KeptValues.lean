import Provenance.Proofs.ParsedQueries
import Provenance.Proofs.StoredCounter
import Provenance.Proofs.TouchedTables

/-!
# Bound values stay as they are

A query changes only the tables that it may change, and those of a handle that some variable has are
not among them: the numbers of its own handles come after the counter, and a collection finds the
variable. So the rows that are seen through a variable change only if the variable is assigned to or
all bindings are forgotten, over any history of queries and whatever calls fail.
-/

namespace Provenance

open Store Database SymbolTable Workspace

variable {σ : Type} {b : Backend σ} {view : σ → Database} {fails : Prop}

/-! ## What a text says -/

namespace Query

/-- Whether a statement of the text assigns to the variable. -/
def assigns (query var : String) : Bool :=
  match parse query with
  | .ok ss => ss.any (·.assigned? == some var)
  | .error _ => false

/-- Whether a statement of the text forgets all bindings. -/
def resets (query : String) : Bool :=
  match parse query with
  | .ok ss => ss.any (·.isReset)
  | .error _ => false

/-- How many things the statements of the text make. -/
def cost (query : String) : Nat :=
  match parse query with
  | .ok ss => makings ss
  | .error _ => 0

theorem assigned?_ne_counterKey {s : Statement} (h : s.IsReadable) : s.assigned? ≠ some counterKey := by
  cases s with
  | command => exact nofun
  | assignment pos target op value =>
    obtain ⟨⟨c, hc, hsigil⟩, -⟩ := h
    intro heq
    rw [Statement.assigned?, Option.some.injEq] at heq
    rw [heq, show counterKey.toList.head? = some 'i' by decide, Option.some.injEq] at hc
    subst hc
    exact absurd hsigil (by decide)

end Query

/-! ## Names -/

section Names

variable {name : String}

theorem head?_of_isGenerated (h : IsGenerated name) (rest : String) :
    (folded (name ++ rest)).head? = some 't' ∨ (folded (name ++ rest)).head? = some 'm' := by
  obtain ⟨n, rfl | rfl⟩ := h
  · left; simp [folded, graphPrefix]
  · right; simp [folded, metadataPrefix]

theorem folded_of_beginsWith {start table : String} (h : beginsWith start table = true)
    (hstart : IsLower start) : start.toList <+: folded table := by
  obtain ⟨rest, hrest⟩ := List.isPrefixOf_iff_prefix.1 h
  refine ⟨rest.map Char.toLower, ?_⟩
  rw [folded, ← hrest, List.map_append]
  exact congrArg (· ++ _) hstart.symm

/-- No table with the prefix of scratch tables is a table of the name. -/
theorem IsApart.sameName_of_beginsWith (h : IsApart name) {table : String}
    (htable : beginsWith scratchPrefix table = true) (side : Side) :
    sameName table ((⟨name⟩ : Graph).table side) = false := by
  rw [← Bool.not_eq_true]
  intro hsame
  have hprefix := folded_of_beginsWith htable (by decide)
  rw [folded_eq_of_sameName hsame, Graph.isLower_table h.lower side] at hprefix
  have := h.not_scratch side
  rw [beginsWith, List.isPrefixOf_iff_prefix.2 hprefix] at this
  cases this

/-- The base graph has no number. -/
theorem not_isNumbered_base (n : Int) : ¬ IsNumbered n Graph.base.name := by
  have hdigit : ∀ m : Nat, 'b' ∉ (Text.natural m).toList := fun m h => by
    rw [Text.natural, String.toList_ofList] at h
    exact absurd (Text.isDigit_of_mem_toDigits h) (by decide)
  have hdecimal : 'b' ∉ (Text.decimal n).toList := by
    cases n with
    | ofNat m => exact hdigit m
    | negSucc m => simpa [Text.decimal] using hdigit (m + 1)
  rintro (h | h)
  · have := congrArg (fun s => s.toList.drop 6) h
    simp only [graphPrefix, String.toList_append] at this
    refine hdecimal ?_
    rw [show (Text.decimal n).toList = "base".toList from this.symm]
    decide
  · exact absurd (congrArg (fun s => s.toList.head?) h) (by simp [Graph.base, metadataPrefix])

end Names

/-! ## Variables that are left alone -/

namespace Workspace

variable {w : Workspace σ} {var : String} {name : Option String}

/-- A variable has a name, or none, in memory as in the store, and nothing about it is pending. -/
structure Holds (view : σ → Database) (var : String) (name : Option String) (w : Workspace σ) :
    Prop where
  keeps : ∃ entries, Keeps (view w.store) entries
  bound : w.symbols.bindings.find? var = name
  pending : w.symbols.pending.find? var = none
  cleared : w.symbols.cleared = false
  stored : storedName? (view w.store) var = name

theorem holds_load (hb : b.IsDatabase view fails) {s s' : σ} (h : Intact (view s)) {t : SymbolTable}
    (hload : (load b).runFrom s = (.ok t, s')) (var : String) :
    Holds view var (storedName? (view s) var) ⟨t, s'⟩ := by
  obtain ⟨e, _, hs, -⟩ | ⟨t', _, entries, hs, hk, -, hpending, hcleared, hbound, hsame⟩ :=
    load_spec hb h
  · rw [hs] at hload; cases hload
  · rw [hs] at hload
    cases hload
    exact ⟨⟨entries, hk⟩, (hbound var).trans (hsame var), by rw [hpending]; rfl, hcleared, hsame var⟩

namespace Holds

theorem fresh (hb : b.IsDatabase view fails) :
    Action.Preserves (Holds view var name) (freshNumber b) := by
  intro w h
  obtain ⟨entries, hk⟩ := h.keeps
  obtain ⟨-, e, s, hs, hv⟩ | ⟨s, hs, hk'⟩ := freshNumber_spec hb hk
  · rw [hs]
    exact ⟨⟨entries, by rw [hv]; exact hk⟩, h.bound, h.pending, h.cleared, by rw [hv]; exact h.stored⟩
  · rw [hs]
    refine ⟨⟨_, hk'⟩, h.bound, h.pending, h.cleared, ?_⟩
    rw [storedName?_put hk hk', if_neg fun hc => hc.2 hc.1]
    exact h.stored

theorem bind (h : w.Holds view var name) {other : String} (hother : other ≠ var) (handle : String) :
    Holds view var name { w with symbols := { w.symbols with
      bindings := w.symbols.bindings.insert other handle
      pending := w.symbols.pending.insert other handle } } :=
  ⟨h.keeps, by rw [OrderedMap.find?_insert, if_neg hother.symm]; exact h.bound,
    by rw [OrderedMap.find?_insert, if_neg hother.symm]; exact h.pending, h.cleared, h.stored⟩

/-- A commit that stores other variables, however it ends. -/
theorem commit (hb : b.IsDatabase view fails) (h : w.Holds view var name)
    (hsorted : w.symbols.pending.Sorted) : ((commit b).runFrom w).2.Holds view var name := by
  obtain ⟨entries, hk⟩ := h.keeps
  obtain ⟨-, e, s, rows, -, -, -, hcleared⟩ | ⟨r, s, rows, hs, hk', hpart, -⟩ :=
    commit_spec hb hsorted.nodup hk
  · rw [h.cleared] at hcleared; cases hcleared
  · rw [hs]
    refine ⟨⟨rows, hk'⟩, h.bound, rfl, rfl, ?_⟩
    obtain hsame | ⟨-, hsome⟩ := hpart var
    · rw [hsame, h.cleared]
      exact h.stored
    · rw [h.pending] at hsome; cases hsome

theorem discard (hb : b.IsDatabase view fails) (h : w.Holds view var name) :
    ((discard b).runFrom w).2.symbols.bindings.find? var = name ∧
      storedName? (view ((Workspace.discard b).runFrom w).2.store) var = name := by
  obtain ⟨entries, hk⟩ := h.keeps
  obtain ⟨hs, -⟩ | ⟨-, e, s, hs, hv⟩ | ⟨bindings, s, hs, -, hv, hread⟩ := discard_spec hb hk
  · rw [hs]
    exact ⟨h.bound, h.stored⟩
  · rw [hs]
    exact ⟨h.bound, by rw [hv]; exact h.stored⟩
  · rw [hs]
    exact ⟨(hread var).trans h.stored, by rw [hv]; exact h.stored⟩

end Holds

end Workspace

/-- A variable that no statement assigns to keeps its name through resolution, in memory and in the
store, unless the bindings are to be forgotten. -/
theorem Resolution.resolve_holds (hb : b.IsDatabase view fails) {w : Workspace σ}
    (hmirrors : w.Mirrors view fun _ => True) {var : String} {name : Option String}
    (h : w.Holds view var name) {ss : List Query.Statement}
    (hassigned : ∀ s ∈ ss, s.assigned? ≠ some var) (hreset : ∀ s ∈ ss, s.isReset = false) :
    ((resolve b ss).runFrom w).2.symbols.bindings.find? var = name ∧
      storedName? (view ((resolve b ss).runFrom w).2.store) var = name := by
  have hholds : (OnWorkspace (Holds view var name)) ((ss.forM (statement b)).runFrom ⟨w, []⟩).2 :=
    Action.Preserves.forM (fun s hs => statement_preserves (Holds.fresh hb)
      (fun _ _ handle h hvar _ _ => h.bind (fun hc => hassigned s hs (hvar.trans (congrArg some hc))) handle)
      fun hc => absurd hc (by simp [hreset s hs])) ⟨w, []⟩ h
  have htrue := statements_mirrors hb admits_true ss ⟨w, []⟩ hmirrors
  obtain ⟨d, hd, -, hrun⟩ | ⟨e, d, hd, -, hw, -⟩ := resolve_cases b ss w
  · rw [hd] at hholds htrue
    rw [hrun]
    have hafter := Holds.commit hb hholds htrue.sorted
    exact ⟨hafter.bound, hafter.stored⟩
  · rw [hd] at hholds
    rw [hw]
    exact Holds.discard hb hholds

namespace Session

/-! ## Stores between queries -/

/-- Whatever table goes by the name of a table of the handle is spelled as that one is. -/
def Spelled (db : Database) (name : String) : Prop :=
  ∀ side, ∀ t ∈ db.tables, sameName t.name ((⟨name⟩ : Graph).table side) = true →
    t.name = (⟨name⟩ : Graph).table side

theorem Spelled.confined {touched : String → Prop} {db db' : Database} {name : String}
    (h : Spelled db name) (hname : IsLower name) (hdb : Confined touched db db') :
    Spelled db' name := by
  intro side t ht hsame
  obtain hlower | ⟨u, hu, heq⟩ := hdb.names t ht
  · exact eq_of_sameName hlower (Graph.isLower_table hname side) hsame
  · rw [← heq] at hsame ⊢
    exact h side u hu hsame

/-- The stored bindings can be read, no scratch table can be taken for one that a variable names,
tables that go by names of handles are spelled as these are, and the numbers of names that variables
have come up to the counter. -/
structure Steady (db : Database) : Prop where
  intact : Intact db
  apart : ∀ name, Names db name → IsApart name
  spelled : ∀ name, Names db name ∨ IsGenerated name → Spelled db name
  numbered : ∀ name n c, Names db name → IsNumbered n name → storedCounter? db = some c → n ≤ c

/-- The name that a variable has between queries. -/
def nameOf? (db : Database) (var : String) : Option String :=
  if var = baseVariable then some Graph.base.name else storedName? db var

/-- So many numbers can be given out before they would be too large for a word. -/
def HasRoom (db : Database) (n : Nat) : Prop :=
  (n : Int) < 2 ^ 63 ∧ ∀ c, storedCounter? db = some c → c + n < 2 ^ 63

theorem HasRoom.mono {db : Database} {m n : Nat} (h : HasRoom db n) (hmn : m ≤ n) : HasRoom db m :=
  ⟨by have := h.1; omega, fun c hc => by have := h.2 c hc; omega⟩

/-! ## Up to the collection -/

section Query

variable {query : String} {s : σ} {w : Workspace σ}

theorem beforeCollection?_some (hw : beforeCollection? b query s = some w) :
    ∃ ss symbols s', Query.parse query = .ok ss ∧ (SymbolTable.load b).runFrom s = (.ok symbols, s') ∧
      w = ((resolveAndRun b ss).runFrom ⟨symbols, s'⟩).2 ∧
      ((execute b query).runFrom s).2 = ((Workspace.collect b).runFrom w).2.store := by
  obtain ⟨hnone, -⟩ | ⟨ss, symbols, s', hparse, hload, hsome, -, hafter⟩ := execute_cases b query s
  · rw [hnone] at hw; cases hw
  · rw [hsome] at hw
    cases hw
    exact ⟨ss, symbols, s', hparse, hload, rfl, hafter⟩

variable (hb : b.IsDatabase view fails) (hquery : Query.IsPlain query)

include hb in
/-- A collection leaves the bindings, and no table has a new name after it. -/
theorem collect_confined (w : Workspace σ) :
    Confined (fun name => name ≠ relation) (view w.store)
      (view ((Workspace.collect b).runFrom w).2.store) := by
  obtain ⟨-, e, s, hs, hv⟩ | ⟨n, s, hs, hv⟩ := collect_spec (w := w) hb
  · rw [hs, hv]
    exact .refl _ _
  · rw [hs, hv]
    refine ⟨fun name hname => ?_, fun t ht => .inr ⟨t, (mem_tables_foldl_remove.1 ht).1, rfl⟩⟩
    rw [not_not.1 hname]
    exact table?_relation_collected

include hb hquery

theorem beforeCollection?_confined (hw : beforeCollection? b query s = some w) :
    Confined (fun _ => True) (view s) (view w.store) := by
  obtain ⟨ss, symbols, s', hparse, hload, rfl, -⟩ := beforeCollection?_some hw
  have hloaded := SymbolTable.load_preserves hb (undisturbed_confined (view s)) s (.refl _ _)
  rw [hload] at hloaded
  have hboth := hloaded.trans (resolveAndRun_confined hb (hquery ss hparse) ⟨symbols, s'⟩)
  exact ⟨fun _ h => (h trivial).elim, hboth.names⟩

theorem beforeCollection?_keeps (hintact : Intact (view s))
    (hw : beforeCollection? b query s = some w) : ∃ entries, Keeps (view w.store) entries := by
  obtain ⟨ss, symbols, s', hparse, hload, rfl, -⟩ := beforeCollection?_some hw
  obtain ⟨entries, hk⟩ := (Resolution.resolve_leaves hb admits_true (Workspace.mirrors_load hb hintact
    (fun _ _ _ => trivial) hload) ss).keeps
  exact ⟨entries, hk.congr (resolveAndRun_bindings hb (hquery ss hparse) ⟨symbols, s'⟩).2⟩

/-- A variable that a query leaves alone is bound to its name when the query is collected, and
stored with it. -/
theorem beforeCollection?_holds (hintact : Intact (view s))
    (hw : beforeCollection? b query s = some w) {var : String}
    (hassigns : Query.assigns query var = false) (hresets : Query.resets query = false) :
    w.symbols.bindings.find? var = storedName? (view s) var ∧
      storedName? (view w.store) var = storedName? (view s) var := by
  obtain ⟨ss, symbols, s', hparse, hload, rfl, -⟩ := beforeCollection?_some hw
  obtain ⟨hsymbols, hrelation⟩ := resolveAndRun_bindings hb (hquery ss hparse) ⟨symbols, s'⟩
  have htrue : Workspace.Mirrors view (fun _ => True) ⟨symbols, s'⟩ :=
    Workspace.mirrors_load hb hintact (fun _ _ _ => trivial) hload
  rw [Query.assigns, hparse, ← Bool.not_eq_true, List.any_eq_true] at hassigns
  rw [Query.resets, hparse, ← Bool.not_eq_true, List.any_eq_true] at hresets
  rw [hsymbols, storedName?_congr hrelation]
  refine Resolution.resolve_holds hb htrue (holds_load hb hintact hload var) (fun st hst hc => ?_)
    fun st hst => ?_
  · exact hassigns ⟨st, hst, by simp [hc]⟩
  · rw [← Bool.not_eq_true]
    exact fun hc => hresets ⟨st, hst, hc⟩

/-- The names that are stored when a query is collected: known ones, and new ones with numbers up to
the counter. -/
theorem beforeCollection?_names (hintact : Intact (view s))
    (hw : beforeCollection? b query s = some w) (hroom : HasRoom (view s) (Query.cost query)) :
    ∃ k c, k ≤ Query.cost query ∧ storedCounter? (view s) = some c ∧
      (storedCounter? (view w.store) = some (c + k) ∨
        storedCounter? (view w.store) = some 0 ∧ ∀ var, storedName? (view w.store) var = none) ∧
      ∀ var name, storedName? (view w.store) var = some name →
        Names (view s) name ∨ ∃ j : Nat, 1 ≤ j ∧ j ≤ k ∧ IsNumbered (c + j) name := by
  obtain ⟨ss, symbols, s', hparse, hload, rfl, -⟩ := beforeCollection?_some hw
  obtain ⟨-, hrelation⟩ := resolveAndRun_bindings hb (hquery ss hparse) ⟨symbols, s'⟩
  have hc : storedCounter? (view s) = some symbols.counter :=
    (load_storedCounter? hb hintact).2 symbols (by rw [hload])
  have hcost : Query.cost query = Query.makings ss := by rw [Query.cost, hparse]
  have hcount : ∀ j ≤ Query.makings ss, wordAfter^[j] symbols.counter = symbols.counter + j :=
    fun j hj => by
      have := hroom.2 _ hc
      exact Resolution.iterate_wordAfter (isWord_of_storedCounter? hc) (by omega)
  have hmirrors : Workspace.Mirrors view (Names (view s)) ⟨symbols, s'⟩ :=
    Workspace.mirrors_load hb hintact (fun v n hn => .inr ⟨v, hn⟩) hload
  obtain ⟨k, hk, hcounter, hnames⟩ := Resolution.resolve_names hb (.inl rfl) hmirrors
    (Workspace.counts_load hb hintact hload)
    fun st hst => Query.assigned?_ne_counterKey (Query.isReadable_of_parse hparse st hst)
  simp only [storedName?_congr hrelation, storedCounter?_congr hrelation]
  refine ⟨k, symbols.counter, hcost ▸ hk, hc, ?_, fun var name hname => ?_⟩
  · rw [← hcount k hk]
    exact hcounter
  · refine (hnames var name hname).imp_right fun ⟨j, hfirst, hj, hnumber⟩ => ⟨j, hfirst, hj, ?_⟩
    rw [← hcount j (hj.trans hk)]
    exact hnumber

/-! ## One query -/

omit hquery in
/-- A query that is not collected leaves the names and the counter, and makes no new names. -/
theorem execute_of_beforeCollection?_none (hintact : Intact (view s))
    (hw : beforeCollection? b query s = none) :
    Intact (view ((execute b query).runFrom s).2) ∧
      (∀ var, storedName? (view ((execute b query).runFrom s).2) var = storedName? (view s) var) ∧
      storedCounter? (view ((execute b query).runFrom s).2) = storedCounter? (view s) ∧
      Confined IsBindings (view s) (view ((execute b query).runFrom s).2) := by
  obtain ⟨-, -, hsame | ⟨e, hfailed⟩⟩ | ⟨ss, symbols, s', -, -, hsome, -, -⟩ := execute_cases b query s
  · rw [hsame]
    exact ⟨hintact, fun _ => rfl, rfl, .refl _ _⟩
  · have hconfined := SymbolTable.load_preserves hb (undisturbed_confined (view s)) s (.refl _ _)
    have hcounter := (load_storedCounter? hb hintact).1
    rw [hfailed] at hconfined hcounter
    obtain ⟨e', t, ht, hintact', hsame⟩ | ⟨symbols, t, entries, ht, -⟩ := load_spec hb hintact
    · rw [ht] at hfailed
      cases hfailed
      exact ⟨hintact', hsame, hcounter, hconfined⟩
    · rw [ht] at hfailed; cases hfailed
  · rw [hw] at hsome; cases hsome

omit hb hquery in
/-- A store is steady again if no tables with other spellings come in, and the names that are stored
then are known ones or have numbers up to the counter. -/
theorem Steady.of_names {db db' : Database} (h : Steady db) {touched : String → Prop}
    (hconfined : Confined touched db db') (hintact : Intact db')
    (hnames : ∀ var name, storedName? db' var = some name → (Names db name ∨ IsGenerated name) ∧
      ∀ n c, IsNumbered n name → storedCounter? db' = some c → n ≤ c) : Steady db' := by
  have hcases : ∀ name, Names db' name → Names db name ∨ IsGenerated name := by
    rintro name (rfl | ⟨var, hvar⟩)
    · exact .inl (.inl rfl)
    · exact (hnames var name hvar).1
  refine ⟨hintact, fun name hname => ?_, fun name hname => ?_, fun name n c hname hn hc => ?_⟩
  · exact (hcases name hname).elim (h.apart name) fun hgen => IsOwn.isApart (.inr hgen)
  · have hold := hname.elim (hcases name) .inr
    refine (h.spelled name hold).confined ?_ hconfined
    exact hold.elim (fun hname => (h.apart name hname).lower) IsGenerated.isLower
  · obtain rfl | ⟨var, hvar⟩ := hname
    · exact (not_isNumbered_base n hn).elim
    · exact (hnames var name hvar).2 n c hn hc

/-- A query leads from a steady store to a steady one, and uses up the room for what it makes. -/
theorem Steady.executed (h : Steady (view s)) {n : Nat}
    (hroom : HasRoom (view s) (Query.cost query + n)) :
    Steady (view ((execute b query).runFrom s).2) ∧
      HasRoom (view ((execute b query).runFrom s).2) n := by
  cases hw : beforeCollection? b query s with
  | none =>
    obtain ⟨hintact, hsame, hcounter, hconfined⟩ :=
      execute_of_beforeCollection?_none hb h.intact hw
    refine ⟨h.of_names hconfined hintact fun var name hname => ?_,
      by have := hroom.1; omega, fun c hc => ?_⟩
    · rw [hsame] at hname
      exact ⟨.inl (.inr ⟨var, hname⟩), fun m c hm hc =>
        h.numbered name m c (.inr ⟨var, hname⟩) hm (hcounter ▸ hc)⟩
    · have := hroom.2 c (hcounter ▸ hc)
      omega
  | some w =>
    obtain ⟨k, c, hk, hc, hcounter, hnames⟩ :=
      beforeCollection?_names hb hquery h.intact hw (hroom.mono (Nat.le_add_right _ n))
    obtain ⟨entries, hkeeps⟩ := beforeCollection?_keeps hb hquery h.intact hw
    obtain ⟨-, -, -, -, -, -, hafter⟩ := beforeCollection?_some hw
    have hconfined := (beforeCollection?_confined hb hquery hw).trans (collect_confined hb w)
    have hrelation := (collect_confined hb w).others relation fun hc => hc rfl
    rw [hafter]
    have hlimit := hroom.2 c hc
    refine ⟨h.of_names hconfined (.inr ⟨entries, hkeeps.congr hrelation⟩) fun var name hname => ?_,
      by have := hroom.1; omega, fun c' hc' => ?_⟩
    · rw [storedName?_congr hrelation] at hname
      refine ⟨(hnames var name hname).imp_right fun ⟨j, _, _, hj⟩ => hj.isGenerated, fun m c' hm hc' => ?_⟩
      rw [storedCounter?_congr hrelation] at hc'
      obtain hcounter | ⟨-, hnone⟩ := hcounter
      · rw [hcounter] at hc'
        cases hc'
        obtain hold | ⟨j, -, hj, hnumber⟩ := hnames var name hname
        · have := h.numbered name m c hold hm hc
          omega
        · rw [hm.eq hnumber]
          omega
      · rw [hnone] at hname; cases hname
    · rw [storedCounter?_congr hrelation] at hc'
      have := hroom.1
      obtain hcounter | ⟨hcounter, -⟩ := hcounter <;> rw [hcounter] at hc' <;> cases hc' <;> omega

/-- The tables of a name that some variable has when a query is collected stay as they are. -/
theorem Steady.table?_execute (h : Steady (view s)) (hroom : HasRoom (view s) (Query.cost query))
    {name : String} (hname : Names (view s) name)
    (hheld : ∀ w, beforeCollection? b query s = some w → ∃ var, w.symbols.lookup? var = some name)
    (side : Side) :
    (view ((execute b query).runFrom s).2).table? ((⟨name⟩ : Graph).table side)
      = (view s).table? ((⟨name⟩ : Graph).table side) := by
  have hapart := h.apart name hname
  have hlower := Graph.isLower_table (g := ⟨name⟩) hapart.lower side
  by_contra hne
  cases mayChange_of_ne hb hquery hne with
  | bindings hsame =>
    rw [sameName_comm, Graph.sameName_table_relation] at hsame
    cases hsame
  | scratch hscratch hsame =>
    rw [hapart.sameName_of_beginsWith hscratch] at hsame
    cases hsame
  | @allocated ss symbols s' s'' program handle j side' hparse hload hprogram hcreates hfirst hlast
      hnumber hsame =>
    have hc : storedCounter? (view s) = some symbols.counter :=
      (load_storedCounter? hb h.intact).2 symbols (by rw [hload])
    have hlimit := hroom.2 _ hc
    rw [show Query.cost query = Query.makings ss by rw [Query.cost, hparse]] at hlimit
    rw [Resolution.iterate_wordAfter (isWord_of_storedCounter? hc) (by omega)] at hnumber
    have heq := eq_of_sameName (Graph.isLower_table hnumber.isGenerated.isLower side') hlower hsame
    obtain rfl : handle = name := congrArg Graph.name (Graph.table_injective heq).1
    have := h.numbered handle _ _ hname hnumber hc
    omega
  | @unreached w table hw hlisted hbegins hunreached hsame =>
    obtain ⟨var, hvar⟩ := hheld w hw
    obtain ⟨⟨t, ht, rfl⟩, -⟩ := mem_tableNames.1 hlisted
    have hspelled := (h.spelled name (.inl hname)).confined hapart.lower
      (beforeCollection?_confined hb hquery hw) side t ht hsame
    exact hunreached var name hvar (by rw [hspelled]; exact mem_relationsOf.2 rfl)

/-- A variable that a query leaves alone keeps its name, and the tables of that stay as they are. -/
theorem Steady.kept_execute (h : Steady (view s)) (hroom : HasRoom (view s) (Query.cost query))
    {var : String} (halone : var = baseVariable ∨
      Query.assigns query var = false ∧ Query.resets query = false) :
    nameOf? (view ((execute b query).runFrom s).2) var = nameOf? (view s) var ∧
      ∀ name, nameOf? (view s) var = some name → ∀ side,
        (view ((execute b query).runFrom s).2).table? ((⟨name⟩ : Graph).table side)
          = (view s).table? ((⟨name⟩ : Graph).table side) := by
  by_cases hbase : var = baseVariable
  · simp only [nameOf?, if_pos hbase, true_and]
    intro name hname side
    rw [Option.some.injEq] at hname
    exact h.table?_execute hb hquery hroom (.inl hname.symm)
      (fun w _ => ⟨baseVariable, by rw [lookup?, if_pos rfl, hname]⟩) side
  · obtain ⟨hassigns, hresets⟩ := halone.resolve_left hbase
    simp only [nameOf?, if_neg hbase]
    refine ⟨?_, fun name hname side => h.table?_execute hb hquery hroom (.inr ⟨var, hname⟩)
      (fun w hw => ⟨var, ?_⟩) side⟩
    · cases hw : beforeCollection? b query s with
      | none => exact (execute_of_beforeCollection?_none hb h.intact hw).2.1 var
      | some w =>
        obtain ⟨-, -, -, -, -, -, hafter⟩ := beforeCollection?_some hw
        rw [hafter, storedName?_congr ((collect_confined hb w).others relation fun hc => hc rfl)]
        exact (beforeCollection?_holds hb hquery h.intact hw hassigns hresets).2
    · rw [lookup?, if_neg hbase, (beforeCollection?_holds hb hquery h.intact hw hassigns hresets).1,
        hname]

/-- No query changes what was recorded. -/
theorem table?_recorded_execute {name : String}
    (hname : name ∈ Side.all.map Side.baseTable ++ Side.all.map Side.annotationTable) :
    (view ((execute b query).runFrom s).2).table? name = (view s).table? name := by
  have hhead : (folded name).head? = some 'v' ∨ (folded name).head? = some 'e' := by
    simp only [Side.all, List.map_cons, List.map_nil, List.cons_append, List.nil_append, List.mem_cons,
      List.not_mem_nil, or_false] at hname
    obtain rfl | rfl | rfl | rfl := hname <;> decide
  have hother : ∀ {table : String}, (folded table).head? ≠ some 'v' → (folded table).head? ≠ some 'e' →
      sameName table name = false := by
    intro table hv he
    refine sameName_eq_false 0 ?_
    rw [← List.head?_eq_getElem?, ← List.head?_eq_getElem?]
    obtain hhead | hhead := hhead <;> rw [hhead] <;> assumption
  have hbegins : ∀ {start table : String}, beginsWith start table = true → IsLower start →
      start.toList ≠ [] → (folded table).head? = start.toList.head? := by
    intro start table h hstart hne
    obtain ⟨rest, hrest⟩ := folded_of_beginsWith h hstart
    rw [← hrest, List.head?_append_of_ne_nil _ hne]
  by_contra hne
  cases mayChange_of_ne hb hquery hne with
  | bindings hsame =>
    rw [hother (by decide) (by decide)] at hsame
    cases hsame
  | scratch hscratch hsame =>
    have hfirst := hbegins hscratch (by decide) (by decide)
    rw [hother (by rw [hfirst]; decide) (by rw [hfirst]; decide)] at hsame
    cases hsame
  | @allocated _ _ _ _ _ handle _ side _ _ _ _ _ _ hnumber hsame =>
    have hfirst := head?_of_isGenerated hnumber.isGenerated ("_" ++ side.label)
    rw [← String.append_assoc] at hfirst
    rw [Graph.table, hother (by obtain h | h := hfirst <;> rw [h] <;> decide)
      (by obtain h | h := hfirst <;> rw [h] <;> decide)] at hsame
    cases hsame
  | unreached _ _ hprefix _ hsame =>
    obtain hprefix | hprefix := hprefix
    · have hfirst := hbegins hprefix (by decide) (by decide)
      rw [hother (by rw [hfirst]; decide) (by rw [hfirst]; decide)] at hsame
      cases hsame
    · have hfirst := hbegins hprefix (by decide) (by decide)
      rw [hother (by rw [hfirst]; decide) (by rw [hfirst]; decide)] at hsame
      cases hsame

end Query

/-! ## Histories -/

/-- The store after queries of which each has its own pattern of failures. -/
def runAll (history : List ((Nat → Option BackendError) × String)) (db : Database) : Database :=
  history.foldl (fun db q => ((execute (Backend.unreliable q.1) q.2).runFrom ⟨0, db⟩).2.store) db

variable {db : Database} {history : List ((Nat → Option BackendError) × String)}

/-- How many things the queries of a history make. -/
def totalCost (history : List ((Nat → Option BackendError) × String)) : Nat :=
  (history.map fun q => Query.cost q.2).sum

theorem Steady.runAll (h : Steady db) (hplain : ∀ q ∈ history, Query.IsPlain q.2) {n : Nat}
    (hroom : HasRoom db (totalCost history + n)) :
    Steady (runAll history db) ∧ HasRoom (Session.runAll history db) n := by
  induction history generalizing db with
  | nil => exact ⟨h, hroom.mono (by simp)⟩
  | cons q history ih =>
    rw [totalCost, List.map_cons, List.sum_cons, Nat.add_assoc] at hroom
    obtain ⟨hsteady, hleft⟩ := h.executed (Backend.isDatabase_unreliable q.1)
      (hplain q List.mem_cons_self) (s := ⟨0, db⟩) hroom
    exact ih hsteady (fun r hr => hplain r (List.mem_cons_of_mem q hr)) hleft

/-- A variable that no query of a history assigns to keeps its name and the tables of that, unless
all bindings are forgotten. -/
theorem Steady.kept_runAll (h : Steady db) (hplain : ∀ q ∈ history, Query.IsPlain q.2)
    (hroom : HasRoom db (totalCost history)) {var : String} (halone : var = baseVariable ∨
      ∀ q ∈ history, Query.assigns q.2 var = false ∧ Query.resets q.2 = false) :
    nameOf? (Session.runAll history db) var = nameOf? db var ∧
      ∀ name, nameOf? db var = some name → ∀ side,
        (Session.runAll history db).table? ((⟨name⟩ : Graph).table side)
          = db.table? ((⟨name⟩ : Graph).table side) := by
  induction history generalizing db with
  | nil => exact ⟨rfl, fun _ _ _ => rfl⟩
  | cons q history ih =>
    rw [totalCost, List.map_cons, List.sum_cons] at hroom
    have hb := Backend.isDatabase_unreliable q.1
    have hq := hplain q List.mem_cons_self
    obtain ⟨hsteady, hleft⟩ := h.executed hb hq (s := ⟨0, db⟩) hroom
    obtain ⟨hname, htables⟩ := h.kept_execute hb hq (s := ⟨0, db⟩) (hroom.mono (Nat.le_add_right _ _))
      (halone.imp_right fun hall => hall q List.mem_cons_self)
    obtain ⟨hnames, hlater⟩ := ih hsteady (fun r hr => hplain r (List.mem_cons_of_mem q hr)) hleft
      (halone.imp_right fun hall r hr => hall r (List.mem_cons_of_mem q hr))
    refine ⟨hnames.trans hname, fun name hvar side => ?_⟩
    exact (hlater name (hname.trans hvar) side).trans (htables name hvar side)

theorem recorded_runAll (hplain : ∀ q ∈ history, Query.IsPlain q.2) {name : String}
    (hname : name ∈ Side.all.map Side.baseTable ++ Side.all.map Side.annotationTable) :
    (runAll history db).table? name = db.table? name := by
  induction history generalizing db with
  | nil => rfl
  | cons q history ih =>
    exact (ih fun r hr => hplain r (List.mem_cons_of_mem q hr)).trans
      (table?_recorded_execute (Backend.isDatabase_unreliable q.1) (hplain q List.mem_cons_self)
        (s := ⟨0, db⟩) hname)

theorem steady_fresh : Steady Storage.fresh := by
  have hown : ∀ name, Names Storage.fresh name → name = Graph.base.name := by
    rintro name (h | ⟨var, hvar⟩)
    · exact h
    · exact absurd hvar (by simp [storedName?, show Storage.fresh.table? relation = none from rfl])
  refine ⟨.inl rfl, fun name hname => IsOwn.isApart (.inl (hown name hname)),
    fun name hname side t ht => eq_of_sameName (sound_fresh.lower t ht) ?_,
    fun name n c hname hn => ?_⟩
  · exact Graph.isLower_table (hname.elim (fun h => by rw [hown name h]; decide)
      IsGenerated.isLower) side
  · rw [hown name hname] at hn
    exact (not_isNumbered_base n hn).elim

/-- The first query binds a variable. The second one binds another to the same graph, and then
unites that with a further vertex. -/
def firstQueries : List ((Nat → Option BackendError) × String) := [(unfailing, "$a = vertices(1)")]

def laterQueries : List ((Nat → Option BackendError) × String) :=
  [(unfailing, "$b = $a\n$b += vertices(2)")]

/-- The new store in which a user has bound a variable and made tables with one row. The counter is 1. -/
def boundByUser (name : String) (tables : List String) : Database :=
  ⟨Storage.baseTables ++ { SymbolTable.emptyRelation with
      rows := [("$a", name), (counterKey, "1")].map entryRow } ::
    tables.map fun table => ⟨table, [.integer "id"], [], [[.integer 1]]⟩⟩

/-- A variable has its relations, and a query that leaves it alone drops them. -/
def LosesRelations (name : String) (db : Database) : Prop :=
  Intact db ∧ HasRelations db name ∧ (∀ n c, IsNumbered n name → storedCounter? db = some c → n ≤ c) ∧
    (∀ var, storedName? db var = if var = "$a" then some name else none) ∧
    ∃ query, Query.IsPlain query ∧ Query.assigns query "$a" = false ∧ Query.resets query = false ∧
      storedName? ((execute Backend.memory query).runFrom db).2 "$a" = some name ∧
      ¬ HasRelations ((execute Backend.memory query).runFrom db).2 name

theorem keeps_boundByUser (name : String) (tables : List String) :
    Keeps (boundByUser name tables) [("$a", name), (counterKey, "1")] := by
  refine ⟨by simp [counterKey], { SymbolTable.emptyRelation with
    rows := [("$a", name), (counterKey, "1")].map entryRow }, ?_, rfl, rfl⟩
  have hnone : Storage.baseTables.find? (fun t => sameName t.name relation) = none := by decide +kernel
  rw [boundByUser, Database.table?, List.find?_append, hnone, List.find?_cons]
  rfl

/-- The query `stat $a` drops a relation of the variable if its collection takes that for one that no
variable reaches. -/
theorem losesRelations_boundByUser {name first second : String}
    (hnumber : ∀ n, IsNumbered n name → n ≤ 1)
    (hrelations : HasRelations (boundByUser name [first, second]) name)
    (hsame : sameName first ((⟨name⟩ : Graph).table .vertex) = true)
    (hbefore : (beforeCollection? Backend.memory "stat $a" (boundByUser name [first, second])).map
      (fun w => (storedName? w.store "$a", w.symbols.isCollected first,
        w.store.tables.any (·.name == first))) = some (some name, true, true)) :
    LosesRelations name (boundByUser name [first, second]) := by
  have hk := keeps_boundByUser name [first, second]
  have hcounter : counterOf [("$a", name), (counterKey, "1")] = some 1 := rfl
  obtain ⟨w, hw, hfacts⟩ := Option.map_eq_some_iff.1 hbefore
  rw [Prod.mk.injEq, Prod.mk.injEq, List.any_eq_true] at hfacts
  obtain ⟨hstored, hcollected, t, ht, hfirst⟩ := hfacts
  obtain rfl : t.name = first := beq_iff_eq.1 hfirst
  refine ⟨.inr ⟨_, hk⟩, hrelations, fun n c hn hc => ?_, fun var => ?_, "stat $a", by decide +kernel,
    by decide +kernel, by decide +kernel, (storedName?_execute_memory hw "$a").trans hstored, fun h => ?_⟩
  · rw [hk.storedCounter?, hcounter] at hc
    cases hc
    exact hnumber n hn
  · rw [hk.storedName?, OrderedMap.find?_cons, OrderedMap.find?_cons]
    by_cases ha : var = "$a"
    · subst ha
      simp [counterKey]
    · by_cases hkey : var = counterKey
      · simp [hkey, counterKey]
      · simp [ha, hkey, Ne.symm ha, Ne.symm hkey]
  · have hgone := h .vertex
    rw [← table?_congr hsame, execute_memory hw, table?_foldl_remove, if_pos] at hgone
    · cases hgone
    · exact List.any_eq_true.2 ⟨t.name, List.mem_filter.2 ⟨mem_tableNames.2 ⟨⟨t, ht, rfl⟩,
        isHidden_of_isCollected hcollected⟩, hcollected⟩, sameName_self _⟩

end Session

end Provenance
