import Mathlib.Data.List.Find
import Mathlib.Data.List.SplitBy
import Mathlib.Data.Set.Insert
import Provenance.Proofs.Names
import Provenance.Store.Database

/-!
# Selections under renamings of tables

A selection reads tables through their names only. If its tables are copied to another database under
other names, the selection with these names has the same rows there, or fails as well. A renaming
leaves alone the short names that stand for sources inside a selection.
-/

namespace Provenance.Store

/-- A name without the character that stands in each name of a renamed table. -/
def IsShort (name : String) : Prop := '_' ∉ name.toList

instance (name : String) : Decidable (IsShort name) := inferInstanceAs (Decidable (¬ _))

/-- Short names are left as they are, and no other name is taken for a short one. -/
structure IsRenaming (T : String → String) : Prop where
  short : ∀ name, IsShort name → T name = name
  alike : ∀ name other, IsShort other → sameName (T name) other = sameName name other

/-! ## Renamed selections -/

/-- The column is named with a short name, if with any. -/
def ColumnRef.IsShort (ref : ColumnRef) : Prop := ∀ name ∈ ref.source, Store.IsShort name

instance (ref : ColumnRef) : Decidable ref.IsShort :=
  inferInstanceAs (Decidable (∀ name ∈ ref.source, Store.IsShort name))

namespace Condition

def under (T : String → String) : Condition → Condition
  | within ref table => within ref (T table)
  | outside ref table => outside ref (T table)
  | leastOf ref least table source agreeing => leastOf ref least (T table) source agreeing
  | unmatched table source agreeing => unmatched (T table) source agreeing
  | c => c

/-- All columns are named with short names, and so is the table that the condition looks into. -/
def IsShort (c : Condition) : Prop :=
  (∀ ref ∈ c.mentions.1, ref.IsShort) ∧ ∀ inner ∈ c.mentions.2, Store.IsShort inner.2

instance (c : Condition) : Decidable c.IsShort := inferInstanceAs (Decidable (_ ∧ _))

end Condition

namespace Source

def under (T : String → String) (s : Source) : Source :=
  { s with table := T s.table, conditions := s.conditions.map (·.under T) }

def IsShort (s : Source) : Prop :=
  (∀ name ∈ s.rename, Store.IsShort name) ∧ ∀ c ∈ s.conditions, c.IsShort

instance (s : Source) : Decidable s.IsShort := inferInstanceAs (Decidable (_ ∧ _))

end Source

/-- The columns that an output mentions. -/
def Output.mentions : Output → List ColumnRef
  | terms list => list.flatMap Term.mentions
  | _ => []

namespace Selection

def under (T : String → String) (q : Selection) : Selection :=
  { q with sources := q.sources.map (·.under T) }

/-- All names inside the selection are short. -/
structure IsShort (q : Selection) : Prop where
  output : ∀ ref ∈ q.output.mentions, ref.IsShort
  sources : ∀ s ∈ q.sources, s.IsShort
  groupBy : ∀ ref ∈ q.groupBy, ref.IsShort
  orderBy : ∀ ref ∈ q.orderBy, ref.IsShort

end Selection

/-! ## Joined rows under other names -/

def Visible.under (T : String → String) (v : Visible) : Visible := { v with source := T v.source }

/-- A joined row whose sources have other names. -/
def Scope.under (T : String → String) (scope : Scope) : Scope := scope.map (Visible.under T)

variable {T : String → String} (hT : IsRenaming T)

namespace Scope

include hT

theorem find?_under {ref : ColumnRef} (href : ref.IsShort) (scope : Scope) :
    (scope.under T).find? ref = scope.find? ref := by
  obtain ⟨source, column⟩ := ref
  cases source with
  | none =>
    simp only [find?, under, List.findSome?_map]
    rfl
  | some name =>
    have hname : (fun v => sameName v.source name) ∘ Visible.under T
        = fun v => sameName v.source name := by
      funext v
      exact hT.alike v.source name (href name rfl)
    simp only [find?, under, List.find?_map, hname, Option.bind_map]
    rfl

theorem cell_under {ref : ColumnRef} (href : ref.IsShort) (scope : Scope) :
    (scope.under T).cell ref = scope.cell ref := by
  rw [cell, find?_under hT href, cell]

theorem affinity_under {ref : ColumnRef} (href : ref.IsShort) (scope : Scope) :
    (scope.under T).affinity ref = scope.affinity ref := by
  rw [affinity, find?_under hT href, affinity]

theorem knows_under {ref : ColumnRef} (href : ref.IsShort) (scope : Scope) :
    (scope.under T).knows ref = scope.knows ref := by
  obtain ⟨source, column⟩ := ref
  cases source with
  | none => simp only [knows, under, List.any_map]; rfl
  | some name =>
    simp only [knows, under, List.any_map, Function.comp_def, Visible.under,
      hT.alike _ name (href name rfl)]
    rfl

theorem agree?_under {left right : ColumnRef} (hleft : left.IsShort) (hright : right.IsShort)
    (scope : Scope) : (scope.under T).agree? left right = scope.agree? left right := by
  simp only [agree?, cell_under hT hleft, cell_under hT hright, affinity_under hT hleft,
    affinity_under hT hright]

theorem agrees_under {pairs : List (ColumnRef × ColumnRef)}
    (hpairs : ∀ ref ∈ pairs.flatMap fun (a, b) => [a, b], ref.IsShort) (scope : Scope) :
    (scope.under T).agrees pairs = scope.agrees pairs := by
  rw [agrees, agrees, Bool.eq_iff_iff, List.all_eq_true, List.all_eq_true]
  refine forall₂_congr fun (left, right) hpair => ?_
  have href : ∀ ref ∈ [left, right], ref.IsShort := fun ref href =>
    hpairs ref (List.mem_flatMap.2 ⟨(left, right), hpair, href⟩)
  simp only [agree?_under hT (href left (by simp)) (href right (by simp))]

end Scope

/-! ## Copied tables -/

/-- A table without its name. -/
def Table.body (t : Table) : Table := { t with name := "" }

/-- The second database has copies of some tables of the first one, under other names. -/
def Copies (T : String → String) (D : Set String) (db db' : Database) : Prop :=
  ∀ name ∈ D, (db'.table? (T name)).map Table.body = (db.table? name).map Table.body

variable {D : Set String} {db db' : Database} (h : Copies T D db db')

theorem Copies.mono {E : Set String} (h : Copies T D db db') (hE : E ⊆ D) : Copies T E db db' :=
  fun name hname => h name (hE hname)

/-- Both tables are missing, or they differ in their names only. -/
theorem Copies.cases (h : Copies T D db db') {name : String} (hname : name ∈ D) :
    (db.table? name = none ∧ db'.table? (T name) = none) ∨
      ∃ t t', db.table? name = some t ∧ db'.table? (T name) = some t' ∧ t'.columns = t.columns ∧
        t'.indexed = t.indexed ∧ t'.rows = t.rows := by
  have hbody := h name hname
  cases ht : db.table? name with
  | none =>
    rw [ht, Option.map_none, Option.map_eq_none_iff] at hbody
    exact .inl ⟨rfl, hbody⟩
  | some t =>
    rw [ht, Option.map_some, Option.map_eq_some_iff] at hbody
    obtain ⟨t', ht', hbody⟩ := hbody
    simp only [Table.body, Table.mk.injEq, true_and] at hbody
    exact .inr ⟨t, t', rfl, ht', hbody⟩

namespace Database

include h

theorem visible_copy {name : String} (hname : name ∈ D) (source : String) :
    db'.visible (T name) (T source) = (db.visible name source).map (Visible.under T) := by
  obtain ⟨hnone, hnone'⟩ | ⟨t, t', ht, ht', hcolumns, -, hrows⟩ := h.cases hname
  · simp [visible, hnone, hnone']
  · simp [visible, ht, ht', hcolumns, hrows, Visible.under]

theorem outline_copy {name : String} (hname : name ∈ D) (source : String) :
    db'.outline (T name) (T source) = (db.outline name source).under T := by
  obtain ⟨hnone, hnone'⟩ | ⟨t, t', ht, ht', hcolumns, -, -⟩ := h.cases hname
  · simp [outline, hnone, hnone', Visible.under]
  · simp [outline, ht, ht', hcolumns, Visible.under]

theorem ids_copy {name : String} (hname : name ∈ D) : db'.ids (T name) = db.ids name := by
  obtain ⟨hnone, hnone'⟩ | ⟨t, t', ht, ht', hcolumns, -, hrows⟩ := h.cases hname
  · simp [ids, hnone, hnone']
  · simp [ids, ht, ht', Table.column?, Table.index?, hcolumns, hrows]

theorem isNone_copy {name : String} (hname : name ∈ D) :
    (db'.table? (T name)).isNone = (db.table? name).isNone := by
  obtain ⟨hnone, hnone'⟩ | ⟨t, t', ht, ht', -⟩ := h.cases hname
  · rw [hnone, hnone']
  · rw [ht, ht']; rfl

end Database

/-! ## Answers over copied tables -/

namespace Condition

/-- The sources that a condition can name: those before it, and the inner one. -/
def surroundings (db : Database) (scope : Scope) (c : Condition) : Scope :=
  match c.mentions.2 with
  | some (table, source) => db.outline table source :: scope
  | none => scope

theorem mentions_under (c : Condition) : (c.under T).mentions.1 = c.mentions.1 := by
  cases c <;> rfl

include hT h

theorem member?_copy {name : String} (hname : name ∈ D) {ref : ColumnRef} (href : ref.IsShort)
    (scope : Scope) :
    member? db' (scope.under T) ref (T name) = member? db scope ref name := by
  simp only [member?, Database.ids_copy h hname, Scope.cell_under hT href,
    Scope.affinity_under hT href]

/-- The rows of an inner table that agree with a row, under their own names and others. -/
theorem agreeing_copy {name source : String} (hname : name ∈ D) (hsource : Store.IsShort source)
    {pairs : List (ColumnRef × ColumnRef)}
    (hpairs : ∀ ref ∈ pairs.flatMap fun (a, b) => [a, b], ref.IsShort) (scope : Scope) :
    ((db'.visible (T name) source).filter fun v => Scope.agrees (v :: scope.under T) pairs)
      = ((db.visible name source).filter fun v => Scope.agrees (v :: scope) pairs).map
        (Visible.under T) := by
  have hvisible := Database.visible_copy h hname source
  rw [hT.short source hsource] at hvisible
  rw [hvisible, List.filter_map]
  congr 1
  refine List.filter_congr fun v _ => ?_
  exact Scope.agrees_under hT hpairs (v :: scope)

theorem holds?_copy {c : Condition} (hc : c.IsShort) (htable : ∀ name ∈ c.table?, name ∈ D)
    (scope : Scope) : (c.under T).holds? db' (scope.under T) = c.holds? db scope := by
  obtain ⟨hrefs, hinner⟩ := hc
  cases c with
  | within ref table => exact member?_copy hT h (htable _ rfl) (hrefs ref (by simp [mentions])) scope
  | outside ref table =>
    simp only [under, holds?, member?_copy hT h (htable _ rfl) (hrefs ref (by simp [mentions]))]
  | same left right =>
    exact Scope.agree?_under hT (hrefs left (by simp [mentions])) (hrefs right (by simp [mentions]))
      scope
  | equals ref value =>
    have href := hrefs ref (by simp [mentions])
    simp only [under, holds?, Scope.cell_under hT href, Scope.affinity_under hT href]
  | atMost ref added bound =>
    simp only [under, holds?, Scope.cell_under hT (hrefs ref (by simp [mentions]))]
  | leastOf ref least table source agreeing =>
    have href := hrefs ref (by simp [mentions])
    have hleast := hrefs least (by simp [mentions])
    have hrows := agreeing_copy hT h (htable _ rfl) (hinner _ rfl)
      (fun ref href => hrefs ref (by simp only [mentions, List.mem_cons]; exact .inr (.inr href))) scope
    simp only [under, holds?, hrows, Scope.cell_under hT href, List.map_map]
    congr 2
    refine List.map_congr_left fun v _ => ?_
    exact Scope.cell_under hT hleast (v :: scope)
  | unmatched table source agreeing =>
    have hrows := agreeing_copy hT h (htable _ rfl) (hinner _ rfl) hrefs scope
    have hall : ∀ (vs : List Visible) (scope : Scope),
        (vs.all fun v => !Scope.agrees (v :: scope) agreeing)
          = (vs.filter fun v => Scope.agrees (v :: scope) agreeing).isEmpty := by
      intro vs scope
      rw [Bool.eq_iff_iff, List.all_eq_true, List.isEmpty_iff, List.filter_eq_nil_iff]
      simp
    simp only [under, holds?, hall, hrows, List.isEmpty_map]

theorem surroundings_copy {c : Condition} (hc : c.IsShort) (htable : ∀ name ∈ c.table?, name ∈ D)
    (scope : Scope) :
    (c.under T).surroundings db' (scope.under T) = (c.surroundings db scope).under T := by
  have hinner : ∀ table source : String, table ∈ D → Store.IsShort source →
      (db'.outline (T table) source :: scope.under T : Scope)
        = Scope.under T (db.outline table source :: scope) := by
    intro table source htable hsource
    have houtline := Database.outline_copy h htable source
    rw [hT.short source hsource] at houtline
    rw [houtline]
    rfl
  cases c with
  | leastOf ref least table source agreeing => exact hinner _ _ (htable _ rfl) (hc.2 _ rfl)
  | unmatched table source agreeing => exact hinner _ _ (htable _ rfl) (hc.2 _ rfl)
  | _ => rfl

end Condition

theorem findSome?_congr {α β : Type} {f g : α → Option β} {list : List α}
    (hfg : ∀ a ∈ list, f a = g a) : list.findSome? f = list.findSome? g := by
  induction list with
  | nil => rfl
  | cons a list ih =>
    rw [List.findSome?_cons, List.findSome?_cons, hfg a List.mem_cons_self,
      ih fun b hb => hfg b (List.mem_cons_of_mem a hb)]

theorem splitBy_map {α β : Type} (f : α → β) (r : β → β → Bool) (list : List α) :
    (list.map f).splitBy r = (list.splitBy fun a b => r (f a) (f b)).map (List.map f) := by
  have hloop : ∀ (l : List α) (a : α) (g : List α) (gs : List (List α)),
      List.splitBy.loop r (l.map f) (f a) (g.map f) (gs.map (List.map f))
        = (List.splitBy.loop (fun a b => r (f a) (f b)) l a g gs).map (List.map f) := by
    intro l
    induction l with
    | nil => intro a g gs; simp [List.splitBy.loop]
    | cons b l ih =>
      intro a g gs
      rw [List.map_cons, List.splitBy.loop, List.splitBy.loop]
      cases r (f a) (f b) with
      | true => exact ih b (a :: g) gs
      | false => simpa using ih b [] ((a :: g).reverse :: gs)
  cases list with
  | nil => rfl
  | cons a l => exact hloop l a [] []

namespace Selection

theorem headD_under (group : List Scope) :
    (group.map (Scope.under T)).headD [] = (group.headD []).under T := by
  cases group <;> rfl

section Rows

include hT

theorem keyOf_under {refs : List ColumnRef} (hrefs : ∀ ref ∈ refs, ref.IsShort) (scope : Scope) :
    keyOf refs (scope.under T) = keyOf refs scope :=
  List.map_congr_left fun ref href => Scope.cell_under hT (hrefs ref href) scope

theorem groups_under {refs : List ColumnRef} (hrefs : ∀ ref ∈ refs, ref.IsShort)
    (list : List Scope) : groups refs (list.map (Scope.under T))
      = (groups refs list).map (List.map (Scope.under T)) := by
  unfold groups
  split
  · simp [Function.comp_def]
  · have hsort : sortScopes refs (list.map (Scope.under T))
        = (sortScopes refs list).map (Scope.under T) := by
      refine (List.map_mergeSort fun a _ b _ => ?_).symm
      rw [keyOf_under hT hrefs, keyOf_under hT hrefs]
    rw [hsort, splitBy_map]
    simp only [keyOf_under hT hrefs]

theorem sortGroups_under {refs : List ColumnRef} (hrefs : ∀ ref ∈ refs, ref.IsShort)
    (list : List (List Scope)) : sortGroups refs (list.map (List.map (Scope.under T)))
      = (sortGroups refs list).map (List.map (Scope.under T)) := by
  unfold sortGroups
  split
  · rfl
  · refine (List.map_mergeSort fun a _ b _ => ?_).symm
    rw [headD_under, headD_under, keyOf_under hT hrefs, keyOf_under hT hrefs]

end Rows

theorem cutOff_map {α β : Type} (f : α → β) (limit : Option Int) (list : List α) :
    cutOff limit (list.map f) = (cutOff limit list).map f := by
  unfold cutOff
  split
  · exact List.map_take.symm
  · rfl

include hT in
theorem value_under {term : Term} (hterm : ∀ ref ∈ term.mentions, ref.IsShort)
    (group : List Scope) : term.value (group.map (Scope.under T)) = term.value group := by
  cases term with
  | column ref =>
    cases group with
    | nil => rfl
    | cons scope group => exact Scope.cell_under hT (hterm ref (by simp [Term.mentions])) scope
  | constant cell => rfl
  | least ref =>
    simp only [Term.value, List.map_map]
    congr 1
    refine List.map_congr_left fun scope _ => ?_
    exact Scope.cell_under hT (hterm ref (by simp [Term.mentions])) scope

/-- All tables of the selection are among the given ones. -/
def Reads (q : Selection) (D : Set String) : Prop := ∀ name ∈ q.tables, name ∈ D

/-- The first of some columns that cannot be found. -/
def missing (scope : Scope) (refs : List ColumnRef) : Option String :=
  (refs.find? fun r => !scope.knows r).map ColumnRef.text

theorem unknownColumn?_eq (db : Database) (q : Selection) :
    unknownColumn? db q =
      let scope : Scope := q.sources.map fun s => db.outline s.table s.name
      (missing scope q.output.mentions).or <|
        (q.sources.findSome? fun s => s.conditions.findSome? fun c =>
          missing (c.surroundings db scope) c.mentions.1).or <|
        (missing scope q.groupBy).or (missing scope q.orderBy) := by
  obtain ⟨output, sources, distinct, groupBy, orderBy, limit⟩ := q
  cases output <;> rfl

theorem tables_under (q : Selection) : (q.under T).tables = q.tables.map T := by
  have hconditions : ∀ cs : List Condition,
      (cs.map (Condition.under T)).filterMap Condition.table?
        = (cs.filterMap Condition.table?).map T := by
    intro cs
    rw [List.filterMap_map, List.map_filterMap]
    congr 1
    funext c
    cases c <;> rfl
  simp only [tables, under, List.map_append, List.map_map, List.flatMap_map, List.map_flatMap]
  congr 1
  simp only [Source.under, hconditions]

/-- The column that is scanned is one that the selection answers with. -/
theorem scannedIndex?_mem {q : Selection} {ref : ColumnRef} (h : scannedIndex? db q = some ref) :
    ref ∈ q.output.mentions := by
  unfold scannedIndex? at h
  split at h
  · next ref' list table rename houtput hsources =>
    split at h
    · cases h
      rw [houtput]
      simp [Output.mentions, Term.mentions]
    · cases h
  · cases h

section Copies

include hT

theorem missing_under {refs : List ColumnRef} (hrefs : ∀ ref ∈ refs, ref.IsShort) (scope : Scope) :
    missing (scope.under T) refs = missing scope refs := by
  rw [missing, missing]
  congr 1
  exact List.find?_congr fun ref href => by rw [Scope.knows_under hT (hrefs ref href)]

theorem name_under {s : Source} (hs : s.IsShort) : (s.under T).name = T s.name := by
  obtain ⟨table, rename, conditions⟩ := s
  cases rename with
  | none => rfl
  | some name => exact (hT.short name (hs.1 name rfl)).symm

include h

variable {q : Selection} (hq : q.IsShort) (hreads : q.Reads D)

theorem extend_copy {s : Source} (hs : s.IsShort) (htable : s.table ∈ D)
    (hconditions : ∀ c ∈ s.conditions, ∀ name ∈ c.table?, name ∈ D) (scope : Scope) :
    extend db' (scope.under T) (s.under T) = (extend db scope s).map (Scope.under T) := by
  have hjoin : (fun v => scope.under T ++ [v]) ∘ Visible.under T
      = Scope.under T ∘ fun v => scope ++ [v] := by
    funext v
    simp [Scope.under]
  rw [extend, extend, name_under hT hs, Source.under, Database.visible_copy h htable,
    List.map_map, hjoin, ← List.map_map, List.filter_map]
  congr 1
  refine List.filter_congr fun row _ => ?_
  rw [Function.comp_apply, List.all_map, Bool.eq_iff_iff, List.all_eq_true, List.all_eq_true]
  refine forall₂_congr fun c hc => ?_
  rw [Function.comp_apply, Condition.holds, Condition.holds,
    Condition.holds?_copy hT h (hs.2 c hc) (hconditions c hc)]

include hq hreads

theorem scopes_copy :
    scopes db' (q.under T).sources = (scopes db q.sources).map (Scope.under T) := by
  have htables : ∀ s ∈ q.sources, s.table ∈ D ∧ ∀ c ∈ s.conditions, ∀ name ∈ c.table?, name ∈ D := by
    intro s hs
    refine ⟨hreads _ (List.mem_append_left _ (List.mem_map_of_mem hs)), fun c hc name hname => ?_⟩
    exact hreads _ (List.mem_append_right _ (List.mem_flatMap.2
      ⟨s, hs, List.mem_filterMap.2 ⟨c, hc, hname⟩⟩))
  have hfold : ∀ (sources : List Source), (∀ s ∈ sources, s ∈ q.sources) → ∀ found : List Scope,
      (sources.map (Source.under T)).foldl (fun found s => found.flatMap fun scope =>
          extend db' scope s) (found.map (Scope.under T))
        = (sources.foldl (fun found s => found.flatMap fun scope => extend db scope s) found).map
          (Scope.under T) := by
    intro sources
    induction sources with
    | nil => intro _ found; rfl
    | cons s sources ih =>
      intro hsources found
      have hs := hsources s List.mem_cons_self
      have hstep : (found.map (Scope.under T)).flatMap (fun scope => extend db' scope (s.under T))
          = (found.flatMap fun scope => extend db scope s).map (Scope.under T) := by
        rw [List.flatMap_map, List.map_flatMap]
        congr 1
        funext scope
        exact extend_copy hT h (hq.sources s hs) (htables s hs).1 (htables s hs).2 scope
      rw [List.map_cons, List.foldl_cons, List.foldl_cons, hstep]
      exact ih (fun t ht => hsources t (List.mem_cons_of_mem s ht)) _
  exact hfold q.sources (fun _ hs => hs) [[]]

/-- A selection answers with the same rows over copied tables. -/
theorem answer_copy : answer db' (q.under T) = answer db q := by
  have hfound : cutOff q.limit (sortGroups q.orderBy (groups q.groupBy (scopes db' (q.under T).sources)))
      = (cutOff q.limit (sortGroups q.orderBy (groups q.groupBy (scopes db q.sources)))).map
        (List.map (Scope.under T)) := by
    rw [scopes_copy hT h hq hreads, groups_under hT hq.groupBy, sortGroups_under hT hq.orderBy,
      cutOff_map]
  have hscopes := scopes_copy hT h hq hreads
  have hunder : ∀ group : List Scope, ((group.map (Scope.under T)).headD []).flatMap Visible.cells
      = (group.headD []).flatMap Visible.cells := by
    intro group
    rw [headD_under, Scope.under, List.flatMap_map]
    rfl
  obtain ⟨output, sources, distinct, groupBy, orderBy, limit⟩ := q
  simp only [answer, under] at hfound hscopes ⊢
  rw [hfound, hscopes]
  cases output with
  | everything => simp only [List.map_map, Function.comp_def, hunder]
  | count => simp only [List.length_map]
  | terms list =>
    have hvalue : ∀ group : List Scope, list.map (Term.value (group.map (Scope.under T)))
        = list.map (Term.value group) := fun group => List.map_congr_left fun term hterm =>
      value_under hT (fun ref href => hq.output ref (List.mem_flatMap.2 ⟨term, hterm, href⟩)) group
    simp only [List.map_map, Function.comp_def, hvalue]

/-- The first column that cannot be found, if there is one. -/
theorem unknownColumn?_copy : unknownColumn? db' (q.under T) = unknownColumn? db q := by
  have hscope : (q.under T).sources.map (fun s => db'.outline s.table s.name)
      = Scope.under T (q.sources.map fun s => db.outline s.table s.name) := by
    rw [under, Scope.under, List.map_map, List.map_map]
    refine List.map_congr_left fun s hs => ?_
    have htable : s.table ∈ D := hreads _ (List.mem_append_left _ (List.mem_map_of_mem hs))
    rw [Function.comp_apply, Function.comp_apply, name_under hT (hq.sources s hs)]
    exact Database.outline_copy h htable s.name
  have hconditions : ∀ scope : Scope, ((q.under T).sources.findSome? fun s =>
        s.conditions.findSome? fun c => missing (c.surroundings db' (scope.under T)) c.mentions.1)
      = q.sources.findSome? fun s =>
        s.conditions.findSome? fun c => missing (c.surroundings db scope) c.mentions.1 := by
    intro scope
    rw [under, List.findSome?_map]
    refine findSome?_congr fun s hs => ?_
    rw [Function.comp_apply, Source.under, List.findSome?_map]
    refine findSome?_congr fun c hc => ?_
    have hshort := (hq.sources s hs).2 c hc
    have htable : ∀ name ∈ c.table?, name ∈ D := fun name hname =>
      hreads _ (List.mem_append_right _ (List.mem_flatMap.2
        ⟨s, hs, List.mem_filterMap.2 ⟨c, hc, hname⟩⟩))
    rw [Function.comp_apply, Condition.mentions_under, Condition.surroundings_copy hT h hshort htable,
      missing_under hT hshort.1]
  rw [unknownColumn?_eq, unknownColumn?_eq]
  dsimp only
  rw [hscope, hconditions]
  simp only [under, missing_under hT hq.output, missing_under hT hq.groupBy,
    missing_under hT hq.orderBy]

/-- A selection over copied tables gives the same rows, or fails as well. -/
theorem rows_copy : (rows db' (q.under T)).toOption = (rows db q).toOption := by
  have htables : ((q.under T).tables.find? fun t => (db'.table? t).isNone)
      = (q.tables.find? fun t => (db.table? t).isNone).map T := by
    rw [tables_under, List.find?_map]
    congr 1
    exact List.find?_congr fun name hname => Database.isNone_copy h (hreads name hname)
  rw [rows, rows, htables, unknownColumn?_copy hT h hq hreads, answer_copy hT h hq hreads]
  cases q.tables.find? fun t => (db.table? t).isNone with
  | some name => rfl
  | none => cases unknownColumn? db q <;> rfl

omit hT hq in
theorem scannedIndex?_copy : scannedIndex? db' (q.under T) = scannedIndex? db q := by
  have hindexed : ∀ name ∈ D, (db'.table? (T name)).elim [] Table.indexed
      = (db.table? name).elim [] Table.indexed := by
    intro name hname
    obtain ⟨hnone, hnone'⟩ | ⟨t, t', ht, ht', -, hindexed, -⟩ := h.cases hname
    · rw [hnone, hnone']
    · rw [ht, ht']
      exact hindexed
  obtain ⟨output, sources, distinct, groupBy, orderBy, limit⟩ := q
  cases output with
  | terms list =>
    cases list with
    | nil => simp [scannedIndex?, under]
    | cons term list =>
      cases term with
      | column ref =>
        match sources with
        | [] => simp [scannedIndex?, under]
        | [⟨table, rename, []⟩] =>
          have htable : table ∈ D := hreads table (by simp [tables])
          simp [scannedIndex?, under, Source.under, hindexed table htable]
        | [⟨table, rename, c :: cs⟩] => simp [scannedIndex?, under, Source.under]
        | _ :: _ :: _ => simp [scannedIndex?, under]
      | _ => simp [scannedIndex?, under]
  | _ => simp [scannedIndex?, under]

/-- So do its rows as they are shown. -/
theorem shownRows_copy : (shownRows db' (q.under T)).toOption = (shownRows db q).toOption := by
  rw [shownRows, shownRows, scannedIndex?_copy h hreads]
  cases hscanned : scannedIndex? db q with
  | none => exact rows_copy hT h hq hreads
  | some ref =>
    have hshort : IsShort { q with orderBy := [ref] } := by
      refine ⟨hq.output, hq.sources, hq.groupBy, fun other hother => ?_⟩
      rw [List.mem_singleton.1 hother]
      exact hq.output ref (scannedIndex?_mem hscanned)
    exact rows_copy hT h hshort hreads

end Copies

end Selection

end Provenance.Store
