import Provenance.Proofs.NewlyReached
import Provenance.Proofs.Sweepers

/-!
# Sweeps that end in time

A sweep stops after the first round that leaves the frontier empty. Each round before that one has reached
something new. So a sweep has at most one round more than it reaches new vertices, whatever its bound.
-/

namespace Provenance

open Store Database Action

/-! ## Rows that are counted -/

/-- The number of rows of a table; there are none if the table is not there. -/
def Store.Database.size (db : Database) (table : String) : ℕ := (db.table? table).elim 0 fun t => t.rows.length

namespace Store.Database

variable {db db' : Database} {table : String}

theorem size_eq_zero : db.size table = 0 ↔ db.HasNoRows table := by
  unfold size HasNoRows
  cases db.table? table <;> simp

theorem size_congr (h : db'.table? table = db.table? table) : db'.size table = db.size table := by rw [size, size, h]

end Store.Database

/-- A number of rows, if a word can tell it. -/
def counted (n : ℕ) : Except BackendError Int :=
  if Text.isWord n then .ok n else .error (.unexpected (Text.decimal n))

/-- The rows of a table that is there are counted, and nothing changes. -/
theorem runFrom_counted {table : String} {s : Scratch Database} (h : (s.store.table? table).isSome = true) :
    (scratchMemory.count table).runFrom s = (counted (s.store.size table), s) := by
  obtain ⟨t, ht⟩ := Option.isSome_iff_exists.1 h
  have hsize : s.store.size table = t.rows.length := by rw [size, ht, Option.elim_some]
  rw [Backend.runFrom_count_along, runFrom_along, show Scratch.storeLens.get s = s.store from rfl, Backend.count,
    Backend.integer, runFrom_bind_ok (Backend.execute_countOf ht), Text.trimmedWord?_decimal_eq, hsize, counted]
  by_cases hword : Text.isWord t.rows.length = true
  · rw [Option.filter_some_pos hword, if_pos hword]
    rfl
  · rw [Option.filter_some_neg (by simpa using hword), if_neg hword, Text.trimBlanks_decimal]
    rfl

/-- In memory, statements are performed by running them. -/
theorem runFrom_performAll (ss : List Statement) (s : Scratch Database) :
    (scratchMemory.performAll ss).runFrom s =
      match runAll false s.store none ss with
      | (.ok _, db) => (.ok (), ⟨s.tables, db⟩)
      | (.error e, db) => (.error (.statement e), ⟨s.tables, db⟩) := by
  have hrun : s.store.run (.sequence ss) = runAll false s.store none ss := rfl
  rw [Backend.performAll, Backend.runFrom_perform_along, runFrom_along,
    show Scratch.storeLens.get s = s.store from rfl]
  simp only [Backend.perform, Backend.memory, Backend.runShown, runFrom_bind, runFrom_of, hrun]
  rcases runAll false s.store none ss with ⟨_ | _, db⟩ <;> rfl

namespace Traversal

variable {t : Tables}

/-! ## One round -/

namespace Round

variable (r : Round t) (s : Scratch Database)

/-- The frontier is counted after a round that has run through. -/
theorem runFrom_sizeAfter : (sizeAfter scratchMemory r.statements t.frontier).runFrom s =
    match runAll false s.store none r.statements with
    | (.ok _, db) => (counted (db.size t.frontier), ⟨s.tables, db⟩)
    | (.error e, db) => (.error (.statement e), ⟨s.tables, db⟩) := by
  rw [sizeAfter, runFrom_bind, runFrom_performAll]
  rcases hrun : runAll false s.store none r.statements with ⟨e | answer, db⟩
  · rfl
  · have hfrontier : (Statement.clear t.frontier).IsReady db :=
      Statement.isReady_of_runAll r.isRefill hrun _ (List.mem_append_right _ List.mem_cons_self)
    exact runFrom_counted (s := ⟨s.tables, db⟩) hfrontier

theorem state_sizeAfter : ((sizeAfter scratchMemory r.statements t.frontier).runFrom s).2
    = ⟨s.tables, (runAll false s.store none r.statements).2⟩ := by
  rw [r.runFrom_sizeAfter]
  split <;> next hrun => rw [hrun]

/-- A round fails, or runs through and tells whether it leaves the frontier empty. -/
theorem sizeAfter_cases :
    (∃ e s', (sizeAfter scratchMemory r.statements t.frontier).runFrom s = (.error e, s')) ∨
      ∃ size answer db, (sizeAfter scratchMemory r.statements t.frontier).runFrom s = (.ok size, ⟨s.tables, db⟩) ∧
        runAll false s.store none r.statements = (.ok answer, db) ∧ (size = 0 ↔ db.HasNoRows t.frontier) := by
  rw [r.runFrom_sizeAfter]
  rcases runAll false s.store none r.statements with ⟨e | answer, db⟩
  · exact .inl ⟨_, _, rfl⟩
  · dsimp only
    rw [counted]
    split
    · refine .inr ⟨_, answer, db, rfl, rfl, ?_⟩
      rw [← size_eq_zero]
      exact Int.natCast_eq_zero
    · exact .inl ⟨_, _, rfl⟩

end Round

/-! ## Whole sweeps -/

/-- What a sweep has reached. -/
def reachedCells (t : Tables) (s : Scratch Database) : Finset Cell := (s.store.ids t.reached).2.toFinset

/-- A round that leaves something in the frontier reaches more. -/
theorem Round.reaches_more (r : Round t) (ht : t.AreApart) {s : Scratch Database} (hids : t.HaveIds s.store)
    {answer : Option (List Row)} {db : Database} (h : runAll false s.store none r.statements = (.ok answer, db))
    (hne : ¬ db.HasNoRows t.frontier) : reachedCells t s ⊂ reachedCells t ⟨s.tables, db⟩ := by
  have hsubset : reachedCells t s ⊆ reachedCells t ⟨s.tables, db⟩ := fun c hc =>
    List.mem_toFinset.2 (r.ids_subset ht (List.Subset.refl _) h (List.mem_toFinset.1 hc))
  obtain ⟨c, hc, hnot⟩ := r.exists_new ht hids h hne
  exact (Finset.ssubset_iff_of_subset hsubset).2 ⟨c, List.mem_toFinset.2 hc, mt List.mem_toFinset.1 hnot⟩

section Sweeps

variable (b : Backend (Scratch Database)) (round : Int → List Statement) (t : Tables) (bound : ℕ) (hop : Int)
  (s : Scratch Database)

/-- From this state the sweep does just the given number of rounds. Those before the last one leave something in
the frontier, and it is the last one since it leaves the frontier empty, or because of the bound. There is at most
one round more than new vertices are reached. -/
structure RunsFor (n : ℕ) : Prop where
  runs : (sweeping b round t bound hop).runFrom s
    = ((fun _ => ()) <$> sizesOf b round t.frontier n hop).runFrom s
  goes : ∀ k < n, ∃ sizes s', (sizesOf b round t.frontier k hop).runFrom s = (.ok sizes, s') ∧ 0 ∉ sizes
  stops : ∀ sizes s', (sizesOf b round t.frontier n hop).runFrom s = (.ok sizes, s') →
    n = bound ∨ sizes.getLast? = some 0
  few : n ≤ min bound
    (1 + (reachedCells t ((sweeping b round t bound hop).runFrom s).2 \ reachedCells t s).card)

/-- From this state the sweep ends by what it reaches, and not later than its bound says. -/
def EndsInTime : Prop := ∃ n, RunsFor b round t bound hop s n

end Sweeps

variable {round : Int → List Statement} (h : Advances t round) (ht : t.AreApart) {bound : ℕ} {hop : Int}
  {s : Scratch Database}

/-- The first round is the last one if it fails or leaves the frontier empty. -/
theorem RunsFor.one (hfirst : ∀ size s', (sizeAfter scratchMemory (round hop) t.frontier).runFrom s = (.ok size, s') →
    size = 0) : RunsFor scratchMemory round t (bound + 1) hop s 1 where
  runs := by
    rw [sweeping_succ, runFrom_bind, runFrom_map, sizesOf, runFrom_bind]
    rcases hrun : (sizeAfter scratchMemory (round hop) t.frontier).runFrom s with ⟨e | size, s'⟩
    · rfl
    · dsimp only
      rw [if_pos (hfirst size s' hrun)]
      rfl
  goes k hk := by
    obtain rfl : k = 0 := by omega
    exact ⟨[], s, rfl, List.not_mem_nil⟩
  stops sizes s' hsizes := by
    obtain ⟨size, s₁, hsize, hrest⟩ := bind_ok_iff.1 hsizes
    obtain rfl := hfirst size s₁ hsize
    cases hrest
    exact .inr rfl
  few := by omega

include h in
/-- What the statements of each round preserve is preserved by a sweep. -/
theorem preserves_sweeping {I : Scratch Database → Prop}
    (hI : ∀ (r : Round t) s, I s → I ⟨s.tables, (runAll false s.store none r.statements).2⟩) :
    Preserves I (sweeping scratchMemory round t bound hop) := by
  induction bound generalizing hop with
  | zero => exact .pure _
  | succ bound ih =>
    rw [sweeping_succ]
    refine .bind (fun s hs => ?_) fun size => ?_
    · obtain ⟨r, hr⟩ := h.rounds hop
      rw [hr, r.state_sizeAfter]
      exact hI r s hs
    · split
      · exact .pure _
      · exact ih

include h in
/-- What is reached stays so throughout a sweep. -/
theorem preserves_reached (ht : t.AreApart) (A : Finset Cell) :
    Preserves (fun s => A ⊆ reachedCells t s) (sweeping scratchMemory round t bound hop) :=
  preserves_sweeping h fun r _ hs _ hc =>
    List.mem_toFinset.2 (r.ids_subset ht (List.Subset.refl _) rfl (List.mem_toFinset.1 (hs hc)))

include h ht

/-- After a first round that reaches something new, a sweep has the rounds that it has from there. -/
theorem RunsFor.succ {size : Int} {s' : Scratch Database} {n : ℕ}
    (hfirst : (sizeAfter scratchMemory (round hop) t.frontier).runFrom s = (.ok size, s')) (hsize : size ≠ 0)
    (hmore : reachedCells t s ⊂ reachedCells t s')
    (hrest : RunsFor scratchMemory round t bound (hop + 1) s' n) :
    RunsFor scratchMemory round t (bound + 1) hop s (n + 1) := by
  have hsweep : (sweeping scratchMemory round t (bound + 1) hop).runFrom s
      = (sweeping scratchMemory round t bound (hop + 1)).runFrom s' := by
    rw [sweeping_succ, runFrom_bind_ok hfirst, if_neg hsize]
  have hsizes : ∀ k, (sizesOf scratchMemory round t.frontier (k + 1) hop).runFrom s
      = ((size :: ·) <$> sizesOf scratchMemory round t.frontier k (hop + 1)).runFrom s' := fun k => by
    rw [sizesOf, runFrom_bind_ok hfirst]
    rfl
  refine ⟨?_, fun k hk => ?_, fun sizes u hu => ?_, ?_⟩
  · rw [hsweep, hrest.runs, runFrom_map, runFrom_map, hsizes, runFrom_map]
    split <;> rfl
  · cases k with
    | zero => exact ⟨[], s, rfl, List.not_mem_nil⟩
    | succ k =>
      obtain ⟨sizes, u, hu, hnone⟩ := hrest.goes k (by omega)
      refine ⟨size :: sizes, u, ?_, by simp [hsize.symm, hnone]⟩
      rw [hsizes, runFrom_map, hu]
  · rw [hsizes, runFrom_map] at hu
    split at hu
    · next sizes' _ hu' =>
      cases hu
      refine (hrest.stops sizes' _ hu').imp (congrArg Nat.succ) fun hlast => ?_
      rw [List.getLast?_cons, hlast]
      rfl
    · cases hu
  · have hfew := hrest.few
    rw [hsweep]
    set A := reachedCells t ((sweeping scratchMemory round t bound (hop + 1)).runFrom s').2
    have hstays : reachedCells t s' ⊆ A := preserves_reached h ht _ s' (Finset.Subset.refl _)
    have hleft := Finset.card_sdiff_add_card_eq_card (hmore.subset.trans hstays)
    have hleft' := Finset.card_sdiff_add_card_eq_card hstays
    have hcard := Finset.card_lt_card hmore
    omega

/-- From tables of ids, a sweep ends in time. -/
theorem endsInTime (hids : t.HaveIds s.store) : EndsInTime scratchMemory round t bound hop s := by
  induction bound generalizing hop s with
  | zero => exact ⟨0, rfl, nofun, fun _ _ _ => .inl rfl, Nat.zero_le _⟩
  | succ bound ih =>
    obtain ⟨r, hr⟩ := h.rounds hop
    rcases r.sizeAfter_cases s with ⟨e, s', hfails⟩ | ⟨size, answer, db, hsize, hrun, hzero⟩
    · refine ⟨1, .one fun size s'' hsize => ?_⟩
      rw [hr, hfails] at hsize
      cases hsize
    · by_cases hnone : size = 0
      · refine ⟨1, .one fun size' s'' hsize' => ?_⟩
        rw [hr, hsize] at hsize'
        cases hsize'
        exact hnone
      · have hids' : t.HaveIds db := hids.congr (Statement.sameColumns_of_runAll r.isRefill hrun)
        obtain ⟨n, hn⟩ : EndsInTime scratchMemory round t bound (hop + 1) ⟨s.tables, db⟩ := ih hids'
        exact ⟨n + 1, .succ h ht (hr ▸ hsize) hnone (r.reaches_more ht hids hrun (mt hzero.2 hnone)) hn⟩

end Traversal

end Provenance
