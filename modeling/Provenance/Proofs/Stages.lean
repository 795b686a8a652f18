import Mathlib.Data.List.Nodup
import Provenance.Proofs.DirectEvaluation
import Provenance.Proofs.RenamedInstructions
import Provenance.Proofs.TouchedTables

/-!
# Stages and stores

An operation on a stage and in a store. The names of the operands on the stage are paired with the
handles that they stand for; the names of tables are paired accordingly, and other names stay as they
are. Since the target is paired with a new handle, neither of the two is taken for an operand, and the
operation leaves the same in both.
-/

namespace Provenance

open Store

/-! ## Names on the stage and in the store -/

theorem Graph.table_eq_iff {name other : String} {side side' : Side} :
    (⟨name⟩ : Graph).table side = (⟨other⟩ : Graph).table side' ↔ name = other ∧ side = side' := by
  constructor
  · intro heq
    obtain ⟨hname, hside⟩ := Graph.table_injective heq
    exact ⟨congrArg Graph.name hname, hside⟩
  · rintro ⟨rfl, rfl⟩
    rfl

/-- The base graph has a name without a number. -/
theorem not_isGenerated_base : ¬ IsGenerated Graph.base.name := by
  rintro ⟨n, h | h⟩
  · have hdigits : (Text.decimal n).toList = ['b', 'a', 's', 'e'] := by
      have hlist := congrArg String.toList h
      rw [String.toList_append] at hlist
      exact List.append_cancel_left (hlist.symm.trans (by decide : _ = graphPrefix.toList ++ _))
    cases n with
    | ofNat n =>
      rw [Text.decimal, Text.natural, String.toList_ofList] at hdigits
      have hb : Text.isDigit 'b' = true := Text.isDigit_of_mem_toDigits (by rw [hdigits]; decide)
      exact absurd hb (by decide)
    | negSucc n =>
      rw [Text.decimal, String.toList_append] at hdigits
      exact absurd (List.cons.inj hdigits).1 (by decide)
  · exact absurd (congrArg (fun s => s.toList.head?) h) (by simp [metadataPrefix, Graph.base])

/-- Names on a stage, each with the name of the handle that it stands for. -/
abbrev Cast := List (String × String)

namespace Cast

/-- The pairs of tables of the paired handles. -/
def tables (cast : Cast) : Cast :=
  cast.flatMap fun (role, actor) => Side.all.map fun side =>
    ((⟨role⟩ : Graph).table side, (⟨actor⟩ : Graph).table side)

/-- The name that a name is paired with, if there is one. -/
def rename (cast : Cast) (name : String) : String := (cast.lookup name).getD name

/-- The pairs are of names of the engine, and the target is paired with the new handle only. -/
structure IsFair (cast : Cast) (role made : String) : Prop where
  own : ∀ p ∈ cast, IsOwn p.1 ∧ IsOwn p.2
  functional : ∀ p ∈ cast, ∀ q ∈ cast, p.1 = q.1 → p.2 = q.2
  base : ∀ p ∈ cast, p.1 = Graph.base.name ↔ p.2 = Graph.base.name
  target : (role, made) ∈ cast
  fresh : ∀ p ∈ cast, p.1 = role ↔ p.2 = made

variable {cast : Cast} {target made : String}

theorem mem_tables {p : String × String} : p ∈ cast.tables ↔
    ∃ q ∈ cast, ∃ side, p = ((⟨q.1⟩ : Graph).table side, (⟨q.2⟩ : Graph).table side) := by
  simp only [tables, List.mem_flatMap, List.mem_map]
  constructor
  · rintro ⟨q, hq, side, -, rfl⟩
    exact ⟨q, hq, side, rfl⟩
  · rintro ⟨q, hq, side, rfl⟩
    exact ⟨q, hq, side, by cases side <;> decide, rfl⟩

theorem rename_of_mem {p : String × String} (hp : p ∈ cast)
    (hfunctional : ∀ q ∈ cast, p.1 = q.1 → p.2 = q.2) : cast.rename p.1 = p.2 := by
  rw [rename]
  cases h : cast.lookup p.1 with
  | none => exact absurd (List.lookup_eq_none_iff.1 h p hp) (by simp)
  | some actor =>
    obtain ⟨before, after, heq, -⟩ := List.lookup_eq_some_iff.1 h
    exact (hfunctional (p.1, actor) (by rw [heq]; simp) rfl).symm

theorem rename_of_not_mem {name : String} (h : ∀ p ∈ cast, p.1 ≠ name) : cast.rename name = name := by
  rw [rename, List.lookup_eq_none_iff.2 fun p hp => by simpa using (h p hp).symm]
  rfl

namespace IsFair

variable (h : cast.IsFair target made)

include h

theorem rename_role {p : String × String} (hp : p ∈ cast) : cast.rename p.1 = p.2 :=
  rename_of_mem hp (h.functional p hp)

theorem rename_table {p : String × String} (hp : p ∈ cast) (side : Side) :
    cast.tables.rename ((⟨p.1⟩ : Graph).table side) = (⟨p.2⟩ : Graph).table side := by
  have hmem : ((⟨p.1⟩ : Graph).table side, (⟨p.2⟩ : Graph).table side) ∈ cast.tables :=
    mem_tables.2 ⟨p, hp, side, rfl⟩
  refine rename_of_mem hmem fun q hq heq => ?_
  obtain ⟨r, hr, side', rfl⟩ := mem_tables.1 hq
  obtain ⟨hname, rfl⟩ := Graph.table_injective heq
  have hsame : p.1 = r.1 := congrArg Graph.name hname
  show (⟨p.2⟩ : Graph).table side = (⟨r.2⟩ : Graph).table side
  rw [h.functional p hp r hr hsame]

/-- A table of no handle of the stage keeps its name. -/
theorem rename_other {table : String} (htable : ∀ name side, IsOwn name → table ≠ (⟨name⟩ : Graph).table side) :
    cast.tables.rename table = table := by
  refine rename_of_not_mem fun p hp heq => ?_
  obtain ⟨q, hq, side, rfl⟩ := mem_tables.1 hp
  exact htable q.1 side (h.own q hq).1 heq.symm

end IsFair

/-! ## Tables of the stage -/

/-- Tables that are written to: scratch tables and the target's. -/
def written (target : String) : Set String :=
  {table | IsScratch table ∨ ∃ side, table = (⟨target⟩ : Graph).table side}

/-- All tables that may be on the stage. -/
def onStage (cast : Cast) : Set String :=
  {table | IsScratch table ∨ table ∈ knownTables ∨
    ∃ p ∈ cast, ∃ side, table = (⟨p.1⟩ : Graph).table side}

theorem ne_table_of_isScratch {table name : String} (ht : IsScratch table) (hname : IsOwn name)
    (side : Side) : table ≠ (⟨name⟩ : Graph).table side := by
  rintro rfl
  exact absurd ht.1 (by simp [hname.isApart.not_scratch side])

theorem head?_table {name : String} (hname : IsOwn name) (side : Side) :
    ((⟨name⟩ : Graph).table side).toList.head? = some 't' ∨
      ((⟨name⟩ : Graph).table side).toList.head? = some 'm' := by
  obtain rfl | ⟨n, rfl | rfl⟩ := hname
  · cases side <;> decide
  · simp [Graph.table, graphPrefix]
  · simp [Graph.table, metadataPrefix]

theorem isReserved_table {name : String} (hname : IsOwn name) (side : Side) :
    Database.isReserved ((⟨name⟩ : Graph).table side) = false := by
  refine isReserved_eq_false ?_
  rw [Graph.isLower_table hname.isLower side]
  obtain h | h := head?_table hname side <;> simp [h]

/-- The tables of a handle begin with another letter than the base relations. -/
theorem ne_table_of_mem_knownTables {table name : String} (ht : table ∈ knownTables)
    (hname : IsOwn name) (side : Side) : table ≠ (⟨name⟩ : Graph).table side := by
  intro heq
  have hknown : table.toList.head? = some 'v' ∨ table.toList.head? = some 'e' := by
    simp only [knownTables, Side.all, List.map_cons, List.map_nil, List.cons_append, List.nil_append,
      List.mem_cons, List.not_mem_nil, or_false] at ht
    obtain rfl | rfl | rfl | rfl := ht <;> decide
  have hown := head?_table hname side
  rw [← heq] at hown
  obtain hk | hk := hknown <;> rw [hk] at hown <;> simp at hown

theorem isLower_of_mem_knownTables {table : String} (ht : table ∈ knownTables) : IsLower table := by
  simp only [knownTables, Side.all, List.map_cons, List.map_nil, List.cons_append, List.nil_append,
    List.mem_cons, List.not_mem_nil, or_false] at ht
  obtain rfl | rfl | rfl | rfl := ht <;> decide

/-- Names that contain the character that stands in no short name. -/
theorem sameName_short {table other : String} (ht : '_' ∈ table.toList) (hother : IsShort other) :
    sameName table other = false := by
  rw [← Bool.not_eq_true]
  intro hsame
  have hmem : '_' ∈ folded table := List.mem_map.2 ⟨'_', ht, by decide⟩
  rw [folded_eq_of_sameName hsame] at hmem
  obtain ⟨c, hc, heq⟩ := List.mem_map.1 hmem
  obtain rfl : c = '_' := by
    delta Char.toLower at heq
    split at heq
    · next hupper =>
      have hval := congrArg Char.val heq
      have hlow := hupper.1
      have hhigh := hupper.2
      simp at hval hlow hhigh
      grind
    · exact heq
  exact hother hc

theorem underscore_mem_table (g : Graph) (side : Side) : '_' ∈ (g.table side).toList := by
  simp [Graph.table]

namespace IsFair

variable (h : cast.IsFair target made)

include h

/-- Each table of the stage is a scratch table, a base relation, or one of a handle. -/
theorem rename_onStage {table : String} (ht : table ∈ onStage cast) :
    (cast.tables.rename table = table ∧ (IsScratch table ∨ table ∈ knownTables)) ∨
      ∃ p ∈ cast, ∃ side, table = (⟨p.1⟩ : Graph).table side ∧
        cast.tables.rename table = (⟨p.2⟩ : Graph).table side := by
  obtain hscratch | hknown | ⟨p, hp, side, rfl⟩ := ht
  · exact .inl ⟨h.rename_other fun name side hname => ne_table_of_isScratch hscratch hname side, .inl hscratch⟩
  · exact .inl ⟨h.rename_other fun name side hname => ne_table_of_mem_knownTables hknown hname side,
      .inr hknown⟩
  · exact .inr ⟨p, hp, side, rfl, h.rename_table hp side⟩

theorem isLower_onStage {table : String} (ht : table ∈ onStage cast) :
    IsLower table ∧ IsLower (cast.tables.rename table) := by
  obtain ⟨hsame, hscratch | hknown⟩ | ⟨p, hp, side, rfl, hsame⟩ := h.rename_onStage ht
  · rw [hsame]; exact ⟨hscratch.2, hscratch.2⟩
  · rw [hsame]; exact ⟨isLower_of_mem_knownTables hknown, isLower_of_mem_knownTables hknown⟩
  · rw [hsame]
    exact ⟨Graph.isLower_table (h.own p hp).1.isLower side, Graph.isLower_table (h.own p hp).2.isLower side⟩

theorem written_subset : written target ⊆ onStage cast := by
  rintro table (hscratch | ⟨side, rfl⟩)
  · exact .inl hscratch
  · exact .inr (.inr ⟨_, h.target, side, rfl⟩)

/-- No other table is taken for one that is written to. -/
theorem rename_eq_iff {table other : String} (ht : table ∈ written target) (ho : other ∈ onStage cast) :
    cast.tables.rename table = cast.tables.rename other ↔ table = other := by
  have htarget := h.own _ h.target
  obtain hscratch | ⟨side, rfl⟩ := ht
  · have hsame : cast.tables.rename table = table :=
      h.rename_other fun name side hname => ne_table_of_isScratch hscratch hname side
    obtain ⟨hother, -⟩ | ⟨p, hp, side', rfl, hother⟩ := h.rename_onStage ho
    · rw [hsame, hother]
    · rw [hsame, hother]
      exact iff_of_false (ne_table_of_isScratch hscratch (h.own p hp).2 side')
        (ne_table_of_isScratch hscratch (h.own p hp).1 side')
  · rw [h.rename_table h.target side]
    obtain ⟨hother, hscratch | hknown⟩ | ⟨p, hp, side', rfl, hother⟩ := h.rename_onStage ho
    · rw [hother]
      exact iff_of_false (ne_table_of_isScratch hscratch htarget.2 side).symm
        (ne_table_of_isScratch hscratch htarget.1 side).symm
    · rw [hother]
      exact iff_of_false (ne_table_of_mem_knownTables hknown htarget.2 side).symm
        (ne_table_of_mem_knownTables hknown htarget.1 side).symm
    · rw [hother, Graph.table_eq_iff, Graph.table_eq_iff]
      exact and_congr_left fun _ => ⟨fun hmade => ((h.fresh p hp).2 hmade.symm).symm,
        fun hrole => ((h.fresh p hp).1 hrole.symm).symm⟩

theorem isRenaming : IsRenaming cast.tables.rename where
  short name hname := h.rename_other fun own side _ heq =>
    hname (by rw [heq]; exact underscore_mem_table _ _)
  alike name other hother := by
    by_cases hname : ∃ p ∈ cast, ∃ side, name = (⟨p.1⟩ : Graph).table side
    · obtain ⟨p, hp, side, rfl⟩ := hname
      rw [h.rename_table hp, sameName_short (underscore_mem_table _ _) hother,
        sameName_short (underscore_mem_table _ _) hother]
    · have hsame : cast.tables.rename name = name := rename_of_not_mem fun q hq heq => by
        obtain ⟨p, hp, side, rfl⟩ := mem_tables.1 hq
        exact hname ⟨p, hp, side, heq.symm⟩
      rw [hsame]

theorem separates : Separates cast.tables.rename (written target) (onStage cast) where
  toIsRenaming := h.isRenaming
  subset := h.written_subset
  apart name hname other hother := by
    obtain ⟨hlower, hlower'⟩ := h.isLower_onStage (h.written_subset hname)
    obtain ⟨hother₁, hother₂⟩ := h.isLower_onStage hother
    rw [sameName_of_isLower hlower hother₁, sameName_of_isLower hlower' hother₂]
    exact decide_eq_decide.2 (h.rename_eq_iff hname hother)
  reserved name hname := by
    obtain ⟨hsame, -⟩ | ⟨p, hp, side, rfl, hsame⟩ := h.rename_onStage (h.written_subset hname)
    · rw [hsame]
    · rw [hsame, isReserved_table (h.own p hp).1, isReserved_table (h.own p hp).2]

end IsFair

end Cast

/-! ## Operands on the stage -/

theorem isOwn_stageName (isBase : Bool) (i : Nat) : IsOwn (stageName isBase i) := by
  cases isBase
  · exact .inr ⟨i + 1, .inl rfl⟩
  · exact .inl rfl

theorem stageName_eq_base {isBase : Bool} {i : Nat} :
    stageName isBase i = Graph.base.name ↔ isBase = true := by
  cases isBase
  · exact iff_of_false (fun h => not_isGenerated_base ⟨i + 1, .inl h.symm⟩) (by decide)
  · exact iff_of_true rfl rfl

theorem stageName_injective {isBase : Bool} {i j : Nat} (h : stageName false i = stageName isBase j) :
    isBase = false ∧ i = j := by
  cases isBase
  · refine ⟨rfl, ?_⟩
    have hnumber := IsNumbered.eq (.inl rfl : IsNumbered (i + 1 : Int) _) (.inl h)
    omega
  · exact absurd (stageName_eq_base.1 h) (by decide)

theorem stageName_ne_role {isBase : Bool} {i : Nat} {role : String} (hrole : IsNumbered 0 role) :
    stageName isBase i ≠ role := by
  rintro rfl
  cases isBase
  · have hnumber := IsNumbered.eq (.inl rfl : IsNumbered (i + 1 : Int) _) hrole
    omega
  · exact not_isGenerated_base hrole.isGenerated

/-- The name of an operand on the stage, and that of its handle. -/
def Value.casting : Value × Nat → Option (String × String)
  | (graph g, i) => some (stageName (g.name == Graph.base.name) i, g.name)
  | (metadata m, i) => some (stageName (m.name == Graph.base.name) i, m.name)
  | _ => none

/-- The names of a target and of operands at their places, each with that of its handle. -/
def castOf (role made : String) (placed : List (Value × Nat)) : Cast :=
  (role, made) :: placed.filterMap Value.casting

theorem mem_castOf {role made : String} {placed : List (Value × Nat)} {p : String × String}
    (h : p ∈ castOf role made placed) : p = (role, made) ∨ ∃ v i, (v, i) ∈ placed ∧ v.IsHandle ∧
      p = (stageName (v.shown == Graph.base.name) i, v.shown) := by
  obtain rfl | h := List.mem_cons.1 h
  · exact .inl rfl
  · obtain ⟨⟨v, i⟩, hv, hp⟩ := List.mem_filterMap.1 h
    refine .inr ⟨v, i, hv, ?_⟩
    cases v with
    | graph g => cases hp; exact ⟨.inl rfl, rfl⟩
    | metadata m => cases hp; exact ⟨.inr rfl, rfl⟩
    | integer n => cases hp
    | text s => cases hp

/-- Operands at different places, whose handles are not the target, are paired fairly. -/
theorem castOf_isFair {role made : String} {placed : List (Value × Nat)} (hrole : IsNumbered 0 role)
    (hmade : IsGenerated made) (hplaces : (placed.map Prod.snd).Nodup)
    (hown : ∀ v i, (v, i) ∈ placed → v.IsHandle → IsOwn v.shown ∧ v.shown ≠ made) :
    (castOf role made placed).IsFair role made where
  own p hp := by
    obtain rfl | ⟨v, i, hv, hhandle, rfl⟩ := mem_castOf hp
    · exact ⟨.inr hrole.isGenerated, .inr hmade⟩
    · exact ⟨isOwn_stageName _ i, (hown v i hv hhandle).1⟩
  functional p hp q hq heq := by
    obtain rfl | ⟨v, i, hv, hhandle, rfl⟩ := mem_castOf hp
    · obtain rfl | ⟨w, j, hw, -, rfl⟩ := mem_castOf hq
      · rfl
      · exact absurd heq.symm (stageName_ne_role hrole)
    · obtain rfl | ⟨w, j, hw, -, rfl⟩ := mem_castOf hq
      · exact absurd heq (stageName_ne_role hrole)
      · by_cases hbase : v.shown = Graph.base.name
        · -- Both are the base graph: no other name on the stage is that of the base graph.
          have hboth : stageName (w.shown == Graph.base.name) j = Graph.base.name := by
            have hsame : stageName (v.shown == Graph.base.name) i = _ := heq
            exact hsame.symm.trans (stageName_eq_base.2 (by simpa using hbase))
          exact hbase.trans (beq_iff_eq.1 (stageName_eq_base.1 hboth)).symm
        · have hfalse : (v.shown == Graph.base.name) = false := by simpa using hbase
          have hplace : i = j := by
            have hsame : stageName (v.shown == Graph.base.name) i = _ := heq
            rw [hfalse] at hsame
            exact (stageName_injective hsame).2
          have hsame := List.inj_on_of_nodup_map hplaces hv hw hplace
          rw [(Prod.mk.inj hsame).1]
  base p hp := by
    obtain rfl | ⟨v, i, hv, hhandle, rfl⟩ := mem_castOf hp
    · refine iff_of_false ?_ ?_
      · rintro rfl; exact not_isGenerated_base hrole.isGenerated
      · rintro rfl; exact not_isGenerated_base hmade
    · exact stageName_eq_base.trans beq_iff_eq
  target := List.mem_cons_self
  fresh p hp := by
    obtain rfl | ⟨v, i, hv, hhandle, rfl⟩ := mem_castOf hp
    · exact iff_of_true rfl rfl
    · exact iff_of_false (stageName_ne_role hrole) (hown v i hv hhandle).2

/-! ## Copies on the stage -/

/-- The tables of a stage that operands and base relations bring. -/
def known (cast : Cast) (role : String) : Set String :=
  {table | table ∈ knownTables ∨ ∃ p ∈ cast, p.1 ≠ role ∧ ∃ side, table = (⟨p.1⟩ : Graph).table side}

open Meaning

variable {db : Database} {role made : String} {placed : List (Value × Nat)}

/-- What operands stand for in a database, at their places. -/
def placedIn (db : Database) (placed : List (Value × Nat)) : List (Meaning × Nat) :=
  placed.map fun (v, i) => (Meaning.of db v, i)

/-- A database consists of copies of some tables of another one, if each of its tables is one of them,
and each of them is there. -/
theorem copies_of_tables {T : String → String} {D : Set String} {stage db : Database}
    (hlower : ∀ name ∈ D, IsLower name)
    (hsound : ∀ t ∈ stage.tables, t.name ∈ D ∧ (db.table? (T t.name)).map Table.body = some t.body)
    (hcomplete : ∀ name ∈ D, (db.table? (T name)).isSome = true → ∃ t ∈ stage.tables, t.name = name) :
    Copies T D stage db := by
  intro name hname
  cases hfind : stage.table? name with
  | none =>
    rw [Option.map_none, Option.map_eq_none_iff]
    by_contra hsome
    obtain ⟨t, ht, rfl⟩ := hcomplete name hname (Option.isSome_iff_ne_none.2 hsome)
    have hthere := Database.table?_isSome_of_mem ht
    rw [hfind] at hthere
    cases hthere
  | some t =>
    obtain ⟨hmem, hbody⟩ := hsound t (Database.table?_mem hfind)
    rw [← eq_of_sameName (hlower _ hmem) (hlower _ hname) (Database.table?_name hfind)]
    exact hbody

theorem mem_staged {name : String} {i : Nat} {t : Table} : t ∈ (Holding.of db name).staged i ↔
    ∃ side u, db.table? ((⟨name⟩ : Graph).table side) = some u ∧
      u.called ((⟨stageName (name == Graph.base.name) i⟩ : Graph).table side) = t := by
  simp only [Holding.staged, Holding.of, List.mem_filterMap, Option.map_eq_some_iff]
  constructor
  · rintro ⟨side, -, _, ⟨u, hu, rfl⟩, rfl⟩
    exact ⟨side, u, hu, rfl⟩
  · rintro ⟨side, u, hu, rfl⟩
    exact ⟨side, by cases side <;> decide, _, ⟨u, hu, rfl⟩, rfl⟩

theorem mem_baseRelations {t : Table} : t ∈ db.baseRelations ↔
    ∃ name ∈ knownTables, ∃ u, db.table? name = some u ∧ u.called name = t := by
  simp only [Database.baseRelations, List.mem_filterMap, Option.map_eq_some_iff]

/-- The tables on a stage: base relations, and tables of operands. -/
theorem mem_stage {t : Table} : t ∈ (stage db.baseRelations (placedIn db placed)).tables ↔
    t ∈ db.baseRelations ∨
      ∃ v i, (v, i) ∈ placed ∧ v.IsHandle ∧ t ∈ (Holding.of db v.shown).staged i := by
  have hhandle : ∀ (v : Value) (i : Nat),
      t ∈ (Meaning.of db v).holding?.elim [] (Holding.staged i) ↔
        v.IsHandle ∧ t ∈ (Holding.of db v.shown).staged i := by
    intro v i
    cases v <;> simp [Meaning.of, holding?, Value.IsHandle, Value.kind, Value.shown]
  simp only [stage, placedIn, List.mem_append, List.mem_flatMap, List.mem_map]
  refine or_congr_right ⟨?_, ?_⟩
  · rintro ⟨_, ⟨⟨v, i⟩, hv, rfl⟩, ht⟩
    exact ⟨v, i, hv, (hhandle v i).1 ht⟩
  · rintro ⟨v, i, hv, ht⟩
    exact ⟨_, ⟨(v, i), hv, rfl⟩, (hhandle v i).2 ht⟩

/-- The tables of an operand are paired with those of its handle. -/
theorem casting_mem {v : Value} {i : Nat} (hv : (v, i) ∈ placed) (hhandle : v.IsHandle) :
    (stageName (v.shown == Graph.base.name) i, v.shown) ∈ castOf role made placed := by
  refine List.mem_cons_of_mem _ (List.mem_filterMap.2 ⟨(v, i), hv, ?_⟩)
  cases v with
  | graph g => rfl
  | metadata m => rfl
  | integer n => simp [Value.IsHandle, Value.kind] at hhandle
  | text s => simp [Value.IsHandle, Value.kind] at hhandle

theorem staged_stage (hrole : IsNumbered 0 role) (hfair : (castOf role made placed).IsFair role made) :
    Staged (castOf role made placed).tables.rename (Cast.onStage (castOf role made placed))
      (known (castOf role made placed) role) (stage db.baseRelations (placedIn db placed)) db := by
  have hsubset : known (castOf role made placed) role ⊆ Cast.onStage (castOf role made placed) := by
    rintro table (hknown | ⟨p, hp, -, side, rfl⟩)
    · exact .inr (.inl hknown)
    · exact .inr (.inr ⟨p, hp, side, rfl⟩)
  have hkept : ∀ name ∈ knownTables, (castOf role made placed).tables.rename name = name := fun name hname =>
    hfair.rename_other fun own side hown => Cast.ne_table_of_mem_knownTables hname hown side
  refine ⟨copies_of_tables (fun name hname => (hfair.isLower_onStage (hsubset hname)).1) ?_ ?_, hsubset⟩
  · intro t ht
    obtain hbase | ⟨v, i, hv, hhandle, hstaged⟩ := mem_stage.1 ht
    · obtain ⟨name, hname, u, hu, rfl⟩ := mem_baseRelations.1 hbase
      refine ⟨.inl hname, ?_⟩
      rw [show (u.called name).name = name from rfl, hkept name hname, hu]
      rfl
    · obtain ⟨side, u, hu, rfl⟩ := mem_staged.1 hstaged
      have hmem : (_, v.shown) ∈ castOf role made placed := casting_mem hv hhandle
      refine ⟨.inr ⟨_, hmem, stageName_ne_role hrole, side, rfl⟩, ?_⟩
      have hrename := hfair.rename_table hmem side
      rw [Table.called, hrename, hu]
      rfl
  · rintro name (hname | ⟨p, hp, hne, side, rfl⟩) hsome
    · rw [hkept name hname] at hsome
      obtain ⟨u, hu⟩ := Option.isSome_iff_exists.1 hsome
      exact ⟨u.called name, mem_stage.2 (.inl (mem_baseRelations.2 ⟨name, hname, u, hu, rfl⟩)), rfl⟩
    · obtain rfl | ⟨v, i, hv, hhandle, rfl⟩ := mem_castOf hp
      · exact absurd rfl hne
      · rw [hfair.rename_table hp side] at hsome
        obtain ⟨u, hu⟩ := Option.isSome_iff_exists.1 hsome
        exact ⟨_, mem_stage.2 (.inr ⟨v, i, hv, hhandle, mem_staged.2 ⟨side, u, hu, rfl⟩⟩), rfl⟩

end Provenance
