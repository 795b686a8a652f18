import Provenance.Proofs.Footprint
import Provenance.Proofs.Staging

/-!
# Requests under other names

The requests of the engine name tables of handles, base relations and scratch tables. Two requests
that differ in these names only match, construct by construct, together with what is asked of the
names: tables that are read are known, tables that are written to may be, and everything else inside
a selection has a short name.
-/

namespace Provenance.Store

variable {T : String → String} {W D E : Set String} {table copy : String}

/-- A table is known, and its copy has the given name. -/
structure HasCopy (T : String → String) (D : Set String) (table copy : String) : Prop where
  known : table ∈ D
  same : T table = copy

/-- A known table may be written to. -/
structure IsWritten (T : String → String) (W D : Set String) (table copy : String) : Prop
    extends HasCopy T D table copy where
  written : table ∈ W

theorem HasCopy.mono (h : HasCopy T D table copy) (hE : D ⊆ E) : HasCopy T E table copy :=
  ⟨hE h.known, h.same⟩

theorem IsWritten.mono (h : IsWritten T W D table copy) (hE : D ⊆ E) : IsWritten T W E table copy :=
  ⟨h.toHasCopy.mono hE, h.written⟩

@[simp] theorem isShort_plain (column : String) : (ColumnRef.plain column).IsShort := by
  simp [ColumnRef.IsShort, ColumnRef.plain]

@[simp] theorem isShort_of (source column : String) :
    (ColumnRef.of source column).IsShort ↔ IsShort source := by
  simp [ColumnRef.IsShort, ColumnRef.of]

/-! ## Conditions and sources -/

/-- A condition has short names, looks into a known table if into any, and is the other one under the
names of the copies. -/
structure Condition.Matches (T : String → String) (D : Set String) (c c' : Condition) : Prop where
  short : c.IsShort
  known : ∀ name ∈ c.table?, name ∈ D
  same : c.under T = c'

namespace Condition.Matches

theorem within (h : HasCopy T D table copy) {ref : ColumnRef} (href : ref.IsShort) :
    Matches T D (.within ref table) (.within ref copy) where
  short := by simp [Condition.IsShort, mentions, href]
  known := by simpa [table?] using h.known
  same := by rw [under, h.same]

theorem outside (h : HasCopy T D table copy) {ref : ColumnRef} (href : ref.IsShort) :
    Matches T D (.outside ref table) (.outside ref copy) where
  short := by simp [Condition.IsShort, mentions, href]
  known := by simpa [table?] using h.known
  same := by rw [under, h.same]

/-- A condition that looks into no table. -/
theorem plain {c : Condition} (hshort : c.IsShort) (hnone : c.table? = none) : Matches T D c c where
  short := hshort
  known := by simp [hnone]
  same := by cases c <;> first | rfl | cases hnone

theorem leastOf (h : HasCopy T D table copy) {ref least : ColumnRef} {source : String}
    {agreeing : List (ColumnRef × ColumnRef)}
    (hshort : (Condition.leastOf ref least table source agreeing).IsShort) :
    Matches T D (.leastOf ref least table source agreeing) (.leastOf ref least copy source agreeing) where
  short := hshort
  known := by simpa [table?] using h.known
  same := by rw [under, h.same]

theorem unmatched (h : HasCopy T D table copy) {source : String}
    {agreeing : List (ColumnRef × ColumnRef)}
    (hshort : (Condition.unmatched table source agreeing).IsShort) :
    Matches T D (.unmatched table source agreeing) (.unmatched copy source agreeing) where
  short := hshort
  known := by simpa [table?] using h.known
  same := by rw [under, h.same]

end Condition.Matches

/-- A source is read under a short name, if renamed, and its conditions match. -/
structure Source.Matches (T : String → String) (D : Set String) (s s' : Source) : Prop where
  table : HasCopy T D s.table s'.table
  short : ∀ name ∈ s.rename, Store.IsShort name
  rename : s'.rename = s.rename
  conditions : List.Forall₂ (Condition.Matches T D) s.conditions s'.conditions

namespace Source.Matches

variable {cs cs' : List Condition}

theorem renamed (h : HasCopy T D table copy) {name : String} (hname : Store.IsShort name)
    (hcs : List.Forall₂ (Condition.Matches T D) cs cs') :
    Matches T D ⟨table, some name, cs⟩ ⟨copy, some name, cs'⟩ := ⟨h, by simpa using hname, rfl, hcs⟩

theorem plain (h : HasCopy T D table copy) (hcs : List.Forall₂ (Condition.Matches T D) cs cs') :
    Matches T D ⟨table, none, cs⟩ ⟨copy, none, cs'⟩ := ⟨h, by simp, rfl, hcs⟩

end Source.Matches

/-- What holds of each element of a list that is related to another list, and what maps it to that. -/
theorem forall_and_map_eq {α : Type} {r : α → α → Prop} {p : α → Prop} {f : α → α} {l l' : List α}
    (h : List.Forall₂ r l l') (hr : ∀ a b, r a b → p a ∧ f a = b) :
    (∀ a ∈ l, p a) ∧ l.map f = l' := by
  induction h with
  | nil => simp
  | cons hab _ ih => exact ⟨by simpa using ⟨(hr _ _ hab).1, ih.1⟩, by simp [(hr _ _ hab).2, ih.2]⟩

theorem Source.Matches.spec {s s' : Source} (h : s.Matches T D s') :
    (s.IsShort ∧ s.table ∈ D ∧ ∀ c ∈ s.conditions, ∀ name ∈ c.table?, name ∈ D) ∧ s.under T = s' := by
  obtain ⟨hconditions, hmap⟩ := forall_and_map_eq (f := Condition.under T)
    (p := fun c => c.IsShort ∧ ∀ name ∈ c.table?, name ∈ D) h.conditions
    fun c c' hc => ⟨⟨hc.short, hc.known⟩, hc.same⟩
  refine ⟨⟨⟨h.short, fun c hc => (hconditions c hc).1⟩, h.table.known, fun c hc =>
    (hconditions c hc).2⟩, ?_⟩
  rw [Source.under, hmap, h.table.same, ← h.rename]

/-! ## Selections -/

/-- A selection has short names inside, reads known tables, and is the other one under the names of
the copies. -/
structure Selection.Matches (T : String → String) (D : Set String) (q q' : Selection) : Prop where
  short : q.IsShort
  known : q.Reads D
  same : q.under T = q'

namespace Selection.Matches

variable {q q' : Selection}

theorem join {terms : List Term} {sources sources' : List Source}
    (hterms : ∀ term ∈ terms, ∀ ref ∈ term.mentions, ref.IsShort)
    (h : List.Forall₂ (Source.Matches T D) sources sources') :
    Matches T D (.join terms sources) (.join terms sources') := by
  obtain ⟨hsources, hmap⟩ := forall_and_map_eq (f := Source.under T) h fun _ _ hs => hs.spec
  refine ⟨⟨fun ref href => ?_, fun s hs => (hsources s hs).1, ?_, ?_⟩, fun name hname => ?_, ?_⟩
  · obtain ⟨term, hterm, href⟩ := List.mem_flatMap.1 href
    exact hterms term hterm ref href
  · simp [Selection.join]
  · simp [Selection.join]
  · obtain hname | hname := List.mem_append.1 hname
    · obtain ⟨s, hs, rfl⟩ := List.mem_map.1 hname
      exact (hsources s hs).2.1
    · obtain ⟨s, hs, hname⟩ := List.mem_flatMap.1 hname
      obtain ⟨c, hc, hname⟩ := List.mem_filterMap.1 hname
      exact (hsources s hs).2.2 c hc name hname
  · rw [← hmap]
    rfl

theorem columns (names : List String) (h : HasCopy T D table copy) {cs cs' : List Condition}
    (hcs : List.Forall₂ (Condition.Matches T D) cs cs') :
    Matches T D (.columns names table cs) (.columns names copy cs') := by
  refine join (fun term hterm ref href => ?_) (.cons (.plain h hcs) .nil)
  obtain ⟨name, -, rfl⟩ := List.mem_map.1 hterm
  rw [List.mem_singleton.1 href]
  exact isShort_plain name

theorem ids (h : HasCopy T D table copy) : Matches T D (.ids table) (.ids copy) :=
  columns ["id"] h .nil

theorem idsWhere (h : HasCopy T D table copy) {cs cs' : List Condition}
    (hcs : List.Forall₂ (Condition.Matches T D) cs cs') :
    Matches T D (.idsWhere table cs) (.idsWhere copy cs') := columns ["id"] h hcs

theorem countOf (h : HasCopy T D table copy) : Matches T D (.countOf table) (.countOf copy) where
  short := ⟨by simp [Selection.countOf, Output.mentions], (ids h).short.sources, (ids h).short.groupBy,
    (ids h).short.orderBy⟩
  known := (ids h).known
  same := by rw [Selection.countOf, Selection.countOf, ← (ids h).same]; rfl

theorem grouped (h : Matches T D q q') {refs : List ColumnRef} (hrefs : ∀ ref ∈ refs, ref.IsShort) :
    Matches T D (q.grouped refs) (q'.grouped refs) where
  short := ⟨h.short.output, h.short.sources, hrefs, h.short.orderBy⟩
  known := h.known
  same := by rw [← h.same]; rfl

theorem groupedBy (h : Matches T D q q') (names : List String) :
    Matches T D (q.groupedBy names) (q'.groupedBy names) := by
  refine h.grouped fun ref href => ?_
  obtain ⟨name, -, rfl⟩ := List.mem_map.1 href
  exact isShort_plain name

end Selection.Matches

/-! ## Requests -/

/-- Statement by statement, two requests write to tables and their copies, and read tables that are
known by then and their copies. -/
inductive Imitates (T : String → String) (W : Set String) :
    Set String → List Statement → List Statement → Set String → Prop where
  | nil {D : Set String} : Imitates T W D [] [] D
  | cons {D E : Set String} {s s' : Statement} {ss ss' : List Statement} (hs : s.Stays W D)
      (hsame : s.under T = s') (h : Imitates T W (s.grown D) ss ss' E) :
      Imitates T W D (s :: ss) (s' :: ss') E

namespace Imitates

variable {ss ss' : List Statement}

/-- A table that is dropped is known afterwards. -/
theorem discard (hw : table ∈ W) (hsame : T table = copy)
    (h : Imitates T W (insert table D) ss ss' E) :
    Imitates T W D (.discard table :: ss) (.discard copy :: ss') E :=
  .cons hw (by rw [Statement.discard, Statement.under, hsame]; rfl) h

theorem create (ht : IsWritten T W D table copy) {columns : List Column}
    (h : Imitates T W D ss ss' E) : Imitates T W D (.create false table (.known columns) :: ss)
      (.create false copy (.known columns) :: ss') E :=
  .cons ⟨ht.written, ht.known⟩ (by rw [Statement.under, ht.same]) h

theorem insertIds (ht : IsWritten T W D table copy) {ids : List Int} (h : Imitates T W D ss ss' E) :
    Imitates T W D (.insertIds table ids :: ss) (.insertIds copy ids :: ss') E :=
  .cons ⟨ht.written, ht.known⟩ (by rw [Statement.insertIds, Statement.under, ht.same]; rfl) h

theorem insertFrom (ht : IsWritten T W D table copy) {q q' : Selection} (hq : q.Matches T D q')
    (h : Imitates T W D ss ss' E) :
    Imitates T W D (.insertFrom table q :: ss) (.insertFrom copy q' :: ss') E :=
  .cons ⟨ht.written, ht.known, hq.short, hq.known⟩ (by rw [Statement.under, ht.same, hq.same]) h

theorem clear (ht : IsWritten T W D table copy) (h : Imitates T W D ss ss' E) :
    Imitates T W D (.clear table :: ss) (.clear copy :: ss') E :=
  .cons ⟨ht.written, ht.known⟩ (by rw [Statement.clear, Statement.under, ht.same]; rfl) h

theorem select {q q' : Selection} (hq : q.Matches T D q') (h : Imitates T W D ss ss' E) :
    Imitates T W D (.select q :: ss) (.select q' :: ss') E :=
  .cons ⟨hq.short, hq.known⟩ (by rw [Statement.under, hq.same]) h

theorem append {F : Set String} {ts ts' : List Statement} (h : Imitates T W D ss ss' E)
    (h' : Imitates T W E ts ts' F) : Imitates T W D (ss ++ ts) (ss' ++ ts') F := by
  induction h with
  | nil => exact h'
  | cons hs hsame _ ih => exact .cons hs hsame (ih h')

/-- Tables may be dropped, and are then known. -/
theorem discards {tables : List String} (htables : ∀ t ∈ tables, t ∈ W ∧ T t = t) :
    ∃ E, D ⊆ E ∧ Imitates T W D (tables.map .discard) (tables.map .discard) E := by
  induction tables generalizing D with
  | nil => exact ⟨D, subset_rfl, .nil⟩
  | cons table tables ih =>
    obtain ⟨hw, hsame⟩ := htables table List.mem_cons_self
    obtain ⟨E, hE, himitates⟩ := ih (D := insert table D) fun t ht =>
      htables t (List.mem_cons_of_mem table ht)
    exact ⟨E, (Set.subset_insert table D).trans hE, .discard hw hsame himitates⟩

/-- Over a stage and its copy, both requests fail, or both give the same answer. -/
theorem runAll {U : Set String} {db db' : Database} (himitates : Imitates T W D ss ss' E)
    (hT : Separates T W U) (h : Staged T U D db db') (closed : Bool) (last : Option (List Row)) :
    (∃ e e' x x', Database.runAll closed db last ss = (.error e, x) ∧
        Database.runAll closed db' last ss' = (.error e', x')) ∨
      ∃ answer x x', Database.runAll closed db last ss = (.ok answer, x) ∧
        Database.runAll closed db' last ss' = (.ok answer, x') ∧ Staged T U E x x' := by
  induction himitates generalizing db db' last with
  | nil => exact .inr ⟨last, db, db', rfl, rfl, h⟩
  | cons hs hsame _ ih =>
    have happly := apply_staged hT h hs
    rw [hsame] at happly
    rcases happly with ⟨c, c', hc, hc'⟩ | ⟨x, x', answer, hx, hx', hstaged⟩
    · rw [Database.runAll, Database.runAll, hc, hc']
      exact .inl ⟨_, _, db, db', rfl, rfl⟩
    · rw [Database.runAll_cons_ok hx, Database.runAll_cons_ok hx']
      exact ih hstaged (answer.or last)

end Imitates

end Provenance.Store
