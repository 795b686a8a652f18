import Provenance.Proofs.ConsistentStores
import Provenance.Proofs.FailedResolutions
import Provenance.Proofs.JoinedTexts
import Provenance.Proofs.Resumption

/-!
# Two queries in one text

Two queries can be sent one after the other, or as one text with a line feed between them. In between
the first way commits the bindings, executes the first program and collects what no variable reaches;
the second way resolves everything before it executes anything. In a consistent store this makes no
difference: either both ways fail, or they end with the same bindings, the same counter and the same
tables of variables, and the one text is answered with the last answer of the two.

The statements of the second query are resolved from drafts that resemble each other, so their program
is the same. It is executed on stores that share all tables that it may use.
-/

namespace Provenance

open Query Store Database SymbolTable Workspace Action

variable {σ : Type} {b : Backend σ} {view : σ → Database}

namespace Resolution

/-- After the first statements it does not matter whether the further ones are resolved in their draft
or in a new draft with the same bindings and the same counter. -/
theorem statements_resumed (hb : b.IsDatabase view False) {ss₁ ss₂ ss : List Query.Statement}
    (halike : List.Forall₂ Statement.Alike (ss₁ ++ ss₂) ss) {w w₁ : Workspace σ} {d₁ : Draft σ}
    (hkeeps : ∃ entries, Keeps (view w.store) entries)
    (h₁ : (ss₁.forM (statement b)).runFrom ⟨w, []⟩ = (.ok (), d₁))
    (hresembles : Draft.Resembles view d₁.program d₁ ⟨w₁, []⟩) :
    (∃ e e' d d₂, (ss.forM (statement b)).runFrom ⟨w, []⟩ = (.error e, d) ∧
        (ss₂.forM (statement b)).runFrom ⟨w₁, []⟩ = (.error e', d₂)) ∨
      ∃ d d₂, (ss.forM (statement b)).runFrom ⟨w, []⟩ = (.ok (), d) ∧
        (ss₂.forM (statement b)).runFrom ⟨w₁, []⟩ = (.ok (), d₂) ∧
        Draft.Resembles view d₁.program d d₂ := by
  have hboth : ((ss₁ ++ ss₂).forM (statement b)).runFrom ⟨w, []⟩ = (ss₂.forM (statement b)).runFrom d₁ := by
    rw [forM_append, runFrom_bind_ok h₁]
  have hjoined : Follows (Draft.Resembles view []) (Draft.Resembles view []) _ _ := statements_follow hb halike
  have hjoined := hjoined _ _ (Draft.Resembles.refl (d := ⟨w, []⟩) hkeeps)
  have hsame : List.Forall₂ Statement.Alike ss₂ ss₂ := List.forall₂_same.2 fun _ _ => rfl
  have hlater := statements_follow hb hsame _ _ hresembles
  rw [hboth] at hjoined
  obtain ⟨e, e', d, d', hd, hd'⟩ | ⟨⟨⟩, d, d', hd, hd', hR⟩ := hjoined
  · obtain ⟨e₁, e₂, u, d₂, hu, hd₂⟩ | ⟨_, _, _, hu, -⟩ := hlater
    · exact .inl ⟨e', e₂, d', d₂, hd', hd₂⟩
    · rw [hd] at hu
      cases hu
  · obtain ⟨_, _, _, _, hu, -⟩ | ⟨⟨⟩, u, d₂, hu, hd₂, hR'⟩ := hlater
    · rw [hd] at hu
      cases hu
    · rw [hd] at hu
      cases hu
      exact .inr ⟨d', d₂, hd', hd₂, hR.symm.congr hR'⟩

/-- Statements that cannot be resolved cannot be resolved with more statements after them either. -/
theorem statements_unresolved (hb : b.IsDatabase view False) {ss₁ ss₂ ss : List Query.Statement}
    (halike : List.Forall₂ Statement.Alike (ss₁ ++ ss₂) ss) {w : Workspace σ}
    (hkeeps : ∃ entries, Keeps (view w.store) entries) {e : QueryError} {d : Draft σ}
    (h₁ : (ss₁.forM (statement b)).runFrom ⟨w, []⟩ = (.error e, d)) :
    ∃ e' d', (ss.forM (statement b)).runFrom ⟨w, []⟩ = (.error e', d') := by
  have hboth : ((ss₁ ++ ss₂).forM (statement b)).runFrom ⟨w, []⟩ = (.error e, d) := by
    rw [forM_append, runFrom_bind_error h₁]
  have hjoined : Follows (Draft.Resembles view []) (Draft.Resembles view []) _ _ := statements_follow hb halike
  obtain ⟨_, e', _, d', -, hd'⟩ | ⟨_, _, _, hd, -⟩ := hjoined _ _ (Draft.Resembles.refl (d := ⟨w, []⟩) hkeeps)
  · exact ⟨e', d', hd'⟩
  · rw [hboth] at hd
    cases hd

end Resolution

/-- Statements that are the same but for their positions are native or not alike. -/
theorem Query.isNative_of_alike {ss ss' : List Query.Statement}
    (halike : List.Forall₂ Statement.Alike ss ss') (h : ∀ s ∈ ss, s.isNative = false) :
    ∀ s ∈ ss', s.isNative = false := by
  induction halike with
  | nil => exact h
  | @cons s s' _ _ hs _ ih =>
    have hbare : ∀ s : Query.Statement, s.bare.isNative = s.isNative := fun s => by cases s <;> rfl
    refine List.forall_mem_cons.2 ⟨?_, ih fun s hs => h s (List.mem_cons_of_mem _ hs)⟩
    rw [← hbare, ← show s.bare = s'.bare from hs, hbare]
    exact h s List.mem_cons_self

/-- Tables that a query may use are spared. -/
theorem SymbolTable.Spares.shared {names : String → Prop} {db db' : Database} (h : Spares db db') :
    Shared (tablesOf names) db db' := by
  refine .of_eq fun table htable => h.others table ?_
  rcases htable with hbase | ⟨name, side, -, rfl⟩
  · revert table
    decide +kernel
  · rw [sameName_comm]
    exact Graph.sameName_table_relation ⟨name⟩ side

/-- A ready program that fails also fails where it shares all tables that it may use. -/
theorem Program.Fails.shared (hb : b.IsDatabase view False) {known : Value → Prop} {names : String → Prop}
    {p : Program} {s t : σ} (h : p.Fails b s) (hp : p.IsReady known)
    (hknown : ∀ v, known v → v.IsHandle → names v.shown)
    (hshared : Shared (tablesOf names) (view s) (view t)) : p.Fails b t := by
  obtain ⟨-, hfails⟩ | ⟨answers, u, -, hs, -⟩ := hp.shared hb hknown hshared
  · exact hfails
  · obtain ⟨e, v, hfails⟩ := h
    rw [Program.Replies, hfails] at hs
    cases hs

/-- A ready program that succeeds also succeeds where it shares all tables that it may use, with the same
answers. -/
theorem Program.Replies.shared (hb : b.IsDatabase view False) {known : Value → Prop} {names : String → Prop}
    {p : Program} {s t u : σ} {answers : List Answer} (h : p.Replies b s answers u) (hp : p.IsReady known)
    (hknown : ∀ v, known v → v.IsHandle → names v.shown)
    (hshared : Shared (tablesOf names) (view s) (view t)) :
    ∃ u', p.Replies b t answers u' ∧
      Shared (tablesOf fun name => names name ∨ p.Creates name) (view u) (view u') := by
  obtain ⟨⟨e, v, hfails⟩, -⟩ | ⟨answers', v, u', hs, ht, hvu⟩ := hp.shared hb hknown hshared
  · rw [Program.Replies, hfails] at h
    cases h
  · rw [Program.Replies, h] at hs
    cases hs
    exact ⟨u', ht, hvu⟩

namespace Session

/-- Two stores have the same bindings and the same counter, and the tables of all variables and the base
relations have the same contents. -/
structure EndsAlike (db db' : Database) : Prop where
  names : ∀ var, storedName? db' var = storedName? db var
  counter : storedCounter? db' = storedCounter? db
  tables : Shared (tablesOf (Names db)) db db'

/-! ## The second query after the first -/

section After

variable (hb : b.IsDatabase view False) {d₁ : Draft σ} {s₁ s₁' : σ} {db : Database} {t₁ : SymbolTable}

include hb

/-- What a query leaves can be loaded. -/
theorem Leaves.loads (h : Leaves d₁ db (view s₁)) : ∃ t₁ s₁', (load b).runFrom s₁ = (.ok t₁, s₁') := by
  obtain ⟨t₁, s₁', -, hload, -⟩ := load_reliable hb h.consistent.intact (by rw [h.counter]; rfl)
  exact ⟨t₁, s₁', hload⟩

/-- What is loaded then resembles the draft of the query. -/
theorem Leaves.resembles (h : Leaves d₁ db (view s₁)) (hload : (load b).runFrom s₁ = (.ok t₁, s₁'))
    (hkeeps : ∃ entries, Keeps (view d₁.workspace.store) entries) :
    Draft.Resembles view d₁.program d₁ ⟨⟨t₁, s₁'⟩, []⟩ := by
  obtain ⟨-, -, hreads, hnames, -⟩ := h.consistent.loaded hb hload
  have hcounter := (load_storedCounter? hb h.consistent.intact).2 t₁ (by rw [hload])
  have hmirrors : Mirrors view (fun _ => True) ⟨t₁, s₁'⟩ :=
    mirrors_load hb h.consistent.intact (fun _ _ _ => trivial) hload
  obtain ⟨entries, hk, -⟩ := hmirrors.keeps
  refine ⟨(List.append_nil _).symm, fun var => ?_, ?_, hkeeps, entries, hk⟩
  · rw [← h.names, ← hnames]
    exact (hreads.bindings var).symm
  · rw [h.counter] at hcounter
    exact Option.some.inj hcounter

omit hb in
/-- Names that variables have after a query were known before it, or the query has created them. -/
theorem Leaves.names_of_traced {known : String → Prop} (h : Leaves d₁ db (view s₁))
    (htraced : d₁.Traced known) (hbase : known Graph.base.name) {name : String}
    (hname : Names (view s₁) name) : known name ∨ Program.Creates d₁.program name := by
  rcases hname with rfl | ⟨var, hvar⟩
  · exact .inl hbase
  · rw [h.names] at hvar
    exact htraced.names var name hvar

end After

/-! ## Both ways -/

/-- Names of handles that are known are names of variables. -/
theorem names_of_known {db : Database} (v : Value) (hv : Known db v) (hhandle : v.IsHandle) :
    Names db v.shown := by
  cases hv with
  | word h => exact hhandle.elim nofun nofun
  | text s => exact hhandle.elim nofun nofun
  | bound h =>
    rw [Resolution.named_shown]
    exact names_of_nameOf? h

/-- A query fails if the symbol table cannot be loaded. -/
theorem execute_unloaded {query : String} {ss : List Query.Statement} (hparse : parse query = .ok ss)
    {s s' : σ} {e : BackendError} (hload : (load b).runFrom s = (.error e, s')) :
    (execute b query).runFrom s = (.error (.backend e), s') := by
  simp only [execute, hparse, withSymbols, runFrom_of, hload]

/-- How two queries and their one text can end. -/
inductive Ending (b : Backend σ) (view : σ → Database) (q₁ q₂ : String) (s : σ) : Prop
  /-- The first query fails, and so does the one text. -/
  | first (hfirst : ∃ e s₁, (execute b q₁).runFrom s = (.error e, s₁))
      (hjoined : ∃ e t, (execute b (q₁ ++ "\n" ++ q₂)).runFrom s = (.error e, t))
  /-- The second query fails, and so does the one text. -/
  | second {a₁ : Answer} {s₁ : σ} (hfirst : (execute b q₁).runFrom s = (.ok a₁, s₁))
      (hsecond : ∃ e s₂, (execute b q₂).runFrom s₁ = (.error e, s₂))
      (hjoined : ∃ e t, (execute b (q₁ ++ "\n" ++ q₂)).runFrom s = (.error e, t))
  /-- All succeed. -/
  | both {s₁ s₂ t : σ} {last₁ last₂ : Option Answer}
      (hfirst : (execute b q₁).runFrom s = (.ok (last₁.getD .ok), s₁)) (hlast₁ : lastAnswer? b q₁ s = last₁)
      (hsecond : (execute b q₂).runFrom s₁ = (.ok (last₂.getD .ok), s₂)) (hlast₂ : lastAnswer? b q₂ s₁ = last₂)
      (hjoined : (execute b (q₁ ++ "\n" ++ q₂)).runFrom s = (.ok ((last₂.or last₁).getD .ok), t))
      (halike : EndsAlike (view s₂) (view t))

section Joined

variable (hb : b.IsDatabase view False) {q₁ q₂ : String} {ss₁ ss₂ ss : List Query.Statement}
  (h₁ : parse q₁ = .ok ss₁) (h₂ : parse q₂ = .ok ss₂) (hjoin : parse (q₁ ++ "\n" ++ q₂) = .ok ss)
  (halike : List.Forall₂ Statement.Alike (ss₁ ++ ss₂) ss)
  (hplain₁ : ∀ st ∈ ss₁, st.isNative = false) (hplain₂ : ∀ st ∈ ss₂, st.isNative = false)
  (hplain : ∀ st ∈ ss, st.isNative = false) {s s' s₁ : σ} {t : SymbolTable} (h : Consistent (view s))
  (hload : (load b).runFrom s = (.ok t, s'))

include hb h₁ h₂ hjoin halike hplain₁ hplain₂ hplain h hload

/-- The first query has been resolved and its program has succeeded. -/
theorem Consistent.ending_of_replies {d₁ : Draft σ} {x₁ u₁ : σ} {answers₁ : List Answer}
    (hd₁ : (ss₁.forM (Resolution.statement b)).runFrom ⟨⟨t, s'⟩, []⟩ = (.ok (), d₁))
    (hprogram₁ : program? b q₁ s = some (d₁.program, x₁)) (hspares₁ : Spares (view s') (view x₁))
    (hreplies₁ : Program.Replies b d₁.program x₁ answers₁ u₁)
    (hfirst : (execute b q₁).runFrom s = (.ok (answers₁.getLast?.getD .ok), s₁))
    (hleaves : Leaves d₁ (view u₁) (view s₁)) : Ending b view q₁ q₂ s := by
  have hmirrors : Mirrors view (fun _ => True) ⟨t, s'⟩ := mirrors_load hb h.intact (fun _ _ _ => trivial) hload
  obtain ⟨entries, hk, -⟩ := hmirrors.keeps
  have hmirrors₁ := Resolution.statements_mirrors hb admits_true ss₁ ⟨⟨t, s'⟩, []⟩ hmirrors
  rw [hd₁] at hmirrors₁
  obtain ⟨entries₁, hk₁, -⟩ := hmirrors₁.keeps
  obtain ⟨t₁, s₁', hload₁⟩ := hleaves.loads hb
  obtain ⟨e, e', d, d₂, hd, hd₂⟩ | ⟨d, d₂, hd, hd₂, hresembles⟩ := Resolution.statements_resumed (w := ⟨t, s'⟩)
    hb halike ⟨entries, hk⟩ hd₁ (hleaves.resembles hb hload₁ ⟨entries₁, hk₁⟩)
  · exact .second hfirst (execute_unresolved hb hload₁ h₂ hd₂) (execute_unresolved hb hload hjoin hd)
  obtain ⟨x, -, hspares, hfails, hsucceeds⟩ := h.execute_resolved hb hload hd hjoin hplain
  obtain ⟨x₂, hprogram₂, hspares₂, hfails₂, hsucceeds₂⟩ :=
    hleaves.consistent.execute_resolved hb hload₁ hd₂ h₂ hplain₂
  rw [hresembles.program] at hfails hsucceeds
  -- The first program does the same in the one text.
  obtain ⟨u₁', hreplies₁', hshared₁⟩ := hreplies₁.shared hb (h.ready hb hload hd₁
    (fun st hst => Query.isReadable_of_parse h₁ st hst) hplain₁) names_of_known
    (hspares₁.shared.symm.trans hspares.shared)
  -- What the second program may use is shared then.
  obtain ⟨-, hspares₁', -, hnames₁, -⟩ := hleaves.consistent.loaded hb hload₁
  have hknown : ∀ name, Names (view s₁') name → Names (view s') name ∨ Program.Creates d₁.program name :=
    fun name hname => hleaves.names_of_traced (h.traced hb hload hd₁) (.inl rfl) ((names_congr hnames₁ name).1 hname)
  have hready₂ := hleaves.consistent.ready hb hload₁ hd₂ (fun st hst => Query.isReadable_of_parse h₂ st hst)
    hplain₂
  have hcollected : Shared (tablesOf (Names (view s₁'))) (view x₂) (view u₁) :=
    (hspares₁'.shared.trans hspares₂.shared).symm.trans
      (Shared.of_eq fun table htable => (hleaves.tables table (tablesOf_mono
        (fun name hname => (names_congr hnames₁ name).1 hname) htable)).symm)
  have hshared := hcollected.trans (hshared₁.mono (tablesOf_mono hknown))
  rcases Program.replies_or_fails b d₂.program x₂ with ⟨answers₂, u₂, hreplies₂⟩ | hfail₂
  · obtain ⟨u₂', hreplies₂', hshared₂⟩ := hreplies₂.shared hb hready₂ names_of_known hshared
    obtain ⟨s₂, hsecond, hleaves₂⟩ := hsucceeds₂ answers₂ u₂ hreplies₂
    obtain ⟨t', hjoined, hleaves'⟩ := hsucceeds _ u₂' (hreplies₁'.append hreplies₂')
    rw [List.getLast?_append] at hjoined
    have hsame : ∀ var, storedName? (view t') var = storedName? (view s₂) var := fun var => by
      rw [hleaves'.names, hleaves₂.names, hresembles.bindings]
    refine .both hfirst (lastAnswer?_of_replies hprogram₁ hreplies₁) hsecond
      (lastAnswer?_of_replies hprogram₂ hreplies₂) hjoined ⟨hsame, ?_, ?_⟩
    · rw [hleaves'.counter, hleaves₂.counter, hresembles.counter]
    · have hends : Shared (tablesOf (Names (view s₂))) (view u₂) (view u₂') :=
        hshared₂.mono (tablesOf_mono fun name =>
          hleaves₂.names_of_traced (hleaves.consistent.traced hb hload₁ hd₂) (.inl rfl))
      refine ((Shared.of_eq hleaves₂.tables).symm.trans hends).trans (Shared.of_eq fun table htable =>
        hleaves'.tables table (tablesOf_mono (fun name hname => (names_congr hsame name).2 hname) htable))
  · exact .second hfirst (hfails₂ hfail₂)
      (hfails (.append hreplies₁' (hfail₂.shared hb hready₂ names_of_known hshared)))

omit h₂ hplain₂ in
/-- If the program of the first query fails, so does the one text. -/
theorem Consistent.joined_fails {d₁ : Draft σ} {x₁ : σ}
    (hd₁ : (ss₁.forM (Resolution.statement b)).runFrom ⟨⟨t, s'⟩, []⟩ = (.ok (), d₁))
    (hspares₁ : Spares (view s') (view x₁)) (hfail₁ : Program.Fails b d₁.program x₁) :
    ∃ e u, (execute b (q₁ ++ "\n" ++ q₂)).runFrom s = (.error e, u) := by
  have hmirrors : Mirrors view (fun _ => True) ⟨t, s'⟩ := mirrors_load hb h.intact (fun _ _ _ => trivial) hload
  obtain ⟨entries, hk, -⟩ := hmirrors.keeps
  have hmirrors₁ := Resolution.statements_mirrors hb admits_true ss₁ ⟨⟨t, s'⟩, []⟩ hmirrors
  rw [hd₁] at hmirrors₁
  obtain ⟨entries₁, hk₁, -⟩ := hmirrors₁.keeps
  have hresembles : Draft.Resembles view d₁.program d₁ ⟨d₁.workspace, []⟩ :=
    ⟨(List.append_nil _).symm, fun _ => rfl, rfl, ⟨entries₁, hk₁⟩, ⟨entries₁, hk₁⟩⟩
  obtain ⟨e, e', d, d₂, hd, -⟩ | ⟨d, d₂, hd, -, hresembles⟩ :=
    Resolution.statements_resumed (w := ⟨t, s'⟩) hb halike ⟨entries, hk⟩ hd₁ hresembles
  · exact execute_unresolved hb hload hjoin hd
  · obtain ⟨x, -, hspares, hfails, -⟩ := h.execute_resolved hb hload hd hjoin hplain
    rw [hresembles.program] at hfails
    refine hfails (Program.Fails.append_left ?_ _)
    exact hfail₁.shared hb (h.ready hb hload hd₁ (fun st hst => Query.isReadable_of_parse h₁ st hst) hplain₁)
      names_of_known (hspares₁.shared.symm.trans hspares.shared)

omit halike hplain hjoin hload in
/-- Two queries end as their one text does. -/
theorem Consistent.ending : Ending b view q₁ q₂ s := by
  obtain ⟨ss, hjoin, halike⟩ := parse_joined h₁ h₂
  have hplain : ∀ st ∈ ss, st.isNative = false := isNative_of_alike halike fun st hst =>
    (List.mem_append.1 hst).elim (hplain₁ st) (hplain₂ st)
  cases hload : (load b).runFrom s with | mk result s' =>
  cases result with
  | error e => exact .first ⟨_, _, execute_unloaded h₁ hload⟩ ⟨_, _, execute_unloaded hjoin hload⟩
  | ok t =>
    obtain ⟨entries, hk, -⟩ :=
      (mirrors_load (P := fun _ => True) hb h.intact (fun _ _ _ => trivial) hload).keeps
    cases hd₁ : (ss₁.forM (Resolution.statement b)).runFrom ⟨⟨t, s'⟩, []⟩ with | mk resolved d₁ =>
    cases resolved with
    | error e =>
      obtain ⟨e', d', hd'⟩ :=
        Resolution.statements_unresolved hb halike (w := ⟨t, s'⟩) ⟨entries, hk⟩ hd₁
      exact .first (execute_unresolved hb hload h₁ hd₁) (execute_unresolved hb hload hjoin hd')
    | ok =>
      obtain ⟨x₁, hprogram₁, hspares₁, hfails₁, hsucceeds₁⟩ := h.execute_resolved hb hload hd₁ h₁ hplain₁
      rcases Program.replies_or_fails b d₁.program x₁ with ⟨answers₁, u₁, hreplies₁⟩ | hfail₁
      · obtain ⟨s₁, hfirst, hleaves⟩ := hsucceeds₁ answers₁ u₁ hreplies₁
        exact h.ending_of_replies hb h₁ h₂ hjoin halike hplain₁ hplain₂ hplain hload hd₁ hprogram₁ hspares₁
          hreplies₁ hfirst hleaves
      · exact .first (hfails₁ hfail₁) (h.joined_fails hb h₁ hjoin halike hplain₁ hplain hload hd₁ hspares₁ hfail₁)

end Joined

theorem statements_of_isOk {query : String} (h : (parse query).isOk = true) : ∃ ss, parse query = .ok ss := by
  cases hparse : parse query with
  | ok ss => exact ⟨ss, rfl⟩
  | error e =>
    rw [hparse] at h
    cases h

/-- The new store is consistent. -/
theorem consistent_fresh : Consistent Storage.fresh where
  intact := settled_fresh.intact
  distinct := Reachable.distinct .fresh
  apart _ hname := settled_fresh.isApart (Reachable.hasNoScratch .fresh) hname
  lists := settled_fresh.lists

/-- What a collection leaves, if it drops the relations in the order in which they were made. -/
def swept (t : SymbolTable) (db : Database) : Database :=
  (((db.tables.map Table.name).filter fun n => !isHidden n).filter t.isCollected).foldl remove db

theorem foldl_remove_collected (t : SymbolTable) (db : Database) :
    (collected t db).foldl remove db = swept t db := by
  refine ((List.mergeSort_perm _ _).filter _).foldl_eq' (fun n _ m _ db => ?_) db
  simp only [remove, List.filter_filter, Bool.and_comm]

end Session

end Provenance
