import Provenance.Proofs.TimelySweeps

/-!
# Sweeps that are not ended early

What would happen if a sweep ran all rounds up to its bound. The rounds after the one that leaves the frontier
empty fill the table of the vertices one edge further with nothing, and that table is cleared before it is read
again, and dropped in the end. So a traversal gives the same and leaves the same tables.
-/

namespace Provenance.Traversal

open Store Database Action

/-! ## Sweeps side by side -/

/-- The same scratch tables are to be dropped, and the stores are related. -/
structure Beside (J : Database → Database → Prop) (s s' : Scratch Database) : Prop where
  tables : s'.tables = s.tables
  store : J s.store s'.store

section Sweeps

variable {t : Tables} {round : Int → List Statement} {s s' : Scratch Database}

/-- The frontier is empty, and rounds run through. -/
def Settled (t : Tables) (round : Int → List Statement) (s : Scratch Database) : Prop :=
  s.store.HasNoRows t.frontier ∧ ∃ hop, ∀ x ∈ round hop, x.IsReady s.store

theorem Round.statements_eq (r : Round t) : r.statements = notes r.before ++ .clear t.next ::
    (notes ((t.next, r.further) :: r.after) ++
      [.clear t.frontier, .insertFrom t.frontier r.fresh, .insertFrom t.reached r.found]) := by
  rw [statements, finding, List.append_assoc, List.cons_append]

/-- A round leaves the same, also if the vertices one edge further were not the same before it. -/
theorem Round.concur_sizeAfter (r : Round t) (h : Beside (AlikeBut t.next) s s') :
    Concur (fun size d d' => Beside SameTables d d' ∧
        (size = 0 → d'.store.HasNoRows t.frontier ∧ ∀ x ∈ r.statements, x.IsReady d'.store))
      (Beside (AlikeBut t.next)) ((sizeAfter scratchMemory r.statements t.frontier).runFrom s)
      ((sizeAfter scratchMemory r.statements t.frontier).runFrom s') := by
  have hrefills := r.isRefill
  have hrun : Concur (fun _ => SameTables) (AlikeBut t.next) (runAll false s.store none r.statements)
      (runAll false s'.store none r.statements) := by
    rw [r.statements_eq] at hrefills ⊢
    exact h.store.concur_cleared (isRefill_notes _) r.avoids_before fun x hx =>
      hrefills x (List.mem_append_right _ (List.mem_cons_of_mem _ hx))
  rw [r.runFrom_sizeAfter, r.runFrom_sizeAfter, h.tables]
  rcases hrun with ⟨answer, d, d', hd, hd', hsame⟩ | ⟨e, d, d', hd, hd', halike⟩
  · have hsize : d'.size t.frontier = d.size t.frontier := size_congr (hsame _)
    rw [hd, hd']
    dsimp only
    rw [hsize, counted]
    split
    · refine .inl ⟨_, _, _, rfl, rfl, ⟨rfl, hsame⟩, fun hzero => ⟨?_, Statement.isReady_of_runAll hrefills hd'⟩⟩
      rw [← size_eq_zero, hsize]
      exact_mod_cast hzero
    · exact .inr ⟨_, _, _, rfl, rfl, rfl, .of_eq hsame⟩
  · rw [hd, hd']
    exact .inr ⟨_, _, _, rfl, rfl, rfl, halike⟩

variable (h : Advances t round) (ht : t.AreApart)

include h ht

/-- Once a sweep is settled, further rounds run through and change at most the table of the vertices one edge
further. -/
theorem runFrom_everyRound (rounds : ℕ) (hop : Int) (hs : Settled t round s) :
    ∃ db, (everyRound scratchMemory round t rounds hop).runFrom s = (.ok (), ⟨s.tables, db⟩) ∧
      AlikeBut t.next s.store db := by
  induction rounds generalizing hop s with
  | zero => exact ⟨s.store, rfl, .of_eq fun _ => rfl⟩
  | succ rounds ih =>
    obtain ⟨hempty, hop', hready⟩ := hs
    obtain ⟨r, hr⟩ := h.rounds hop
    have hready := h.ready hop' hop hready
    rw [hr] at hready
    obtain ⟨db, hrun, halike⟩ := r.leads_idle ht hempty hready false s.store (.of_eq fun _ => rfl)
    have hempty' : db.HasNoRows t.frontier := hempty.congr (halike.others _ ht.next_frontier)
    have hsize : (sizeAfter scratchMemory (round hop) t.frontier).runFrom s = (.ok 0, ⟨s.tables, db⟩) := by
      rw [hr, r.runFrom_sizeAfter, hrun]
      dsimp only
      rw [size_eq_zero.2 hempty']
      rfl
    have hsettled : Settled t round ⟨s.tables, db⟩ :=
      ⟨hempty', hop, fun x hx => (hready x (hr ▸ hx)).congr halike.sameColumns⟩
    obtain ⟨db', hrest, halike'⟩ := ih (hop + 1) hsettled
    exact ⟨db', by rw [everyRound_succ, runFrom_bind_ok hsize, hrest], halike.trans halike'⟩

omit ht in
/-- A sweep and one that is settled when that ends, and then at most changes the table of the vertices one edge
further. -/
theorem concurs_sweeping (full tail : ℕ → Int → Action (Scratch Database) BackendError Unit)
    (hzero : ∀ hop, full 0 hop = pure ())
    (hsucc : ∀ rounds hop, full (rounds + 1) hop = sizeAfter scratchMemory (round hop) t.frontier >>= fun size =>
      if size = 0 then tail rounds (hop + 1) else full rounds (hop + 1))
    (htail : ∀ rounds hop s, Settled t round s → ∃ db, (tail rounds hop).runFrom s = (.ok (), ⟨s.tables, db⟩) ∧
      AlikeBut t.next s.store db) (rounds : ℕ) (hop : Int) :
    Concurs (Beside (AlikeBut t.next)) (Beside (AlikeBut t.next)) (sweeping scratchMemory round t rounds hop)
      (full rounds hop) fun _ => Beside (AlikeBut t.next) := by
  induction rounds generalizing hop with
  | zero =>
    rw [hzero]
    exact .pure fun _ _ hs => hs
  | succ rounds ih =>
    intro s s' hs
    rw [sweeping_succ, hsucc]
    obtain ⟨r, hr⟩ := h.rounds hop
    have hround := r.concur_sizeAfter hs
    rw [← hr] at hround
    refine concur_bind hround fun size d d' ⟨hsame, hsettled⟩ => ?_
    by_cases hsize : size = 0
    · obtain ⟨hempty, hready⟩ := hsettled hsize
      obtain ⟨db, htail, halike⟩ := htail rounds (hop + 1) d' ⟨hempty, hop, hready⟩
      rw [if_pos hsize, if_pos hsize, htail]
      exact .inl ⟨_, _, _, rfl, rfl, hsame.tables, .trans (.of_eq hsame.store) halike⟩
    · rw [if_neg hsize, if_neg hsize]
      exact ih (hop + 1) d d' ⟨hsame.tables, .of_eq hsame.store⟩

end Sweeps

/-- Sweeps that are run in this way do the same as those that end early, but for the table of the vertices one
edge further. -/
def IsFaithful (sw : Sweeper Database) : Prop :=
  ∀ {t : Tables} {round : Int → List Statement}, Advances t round → t.AreApart →
    ∀ (rounds : ℕ) (hop : Int) (s s' : Scratch Database), Beside (AlikeBut t.next) s s' → t.HaveIds s'.store →
      Concur (fun _ => Beside (AlikeBut t.next)) (Beside (AlikeBut t.next))
        ((sweeping scratchMemory round t rounds hop).runFrom s) ((sw scratchMemory round t rounds hop).runFrom s')

theorem isFaithful_everyRound : IsFaithful everyRound := fun h ht rounds hop s s' hs _ =>
  concurs_sweeping h (everyRound scratchMemory _ _) (everyRound scratchMemory _ _) (fun _ => rfl)
    (fun rounds hop => by simp only [everyRound_succ, ite_self])
    (fun rounds hop _ hs => runFrom_everyRound h ht rounds hop hs) rounds hop s s' hs

theorem isFaithful_provided (e : BackendError) : IsFaithful (provided EndsInTime e) := by
  intro t round h ht rounds hop s s' hs hids
  have hruns : (provided EndsInTime e scratchMemory round t rounds hop).runFrom s'
      = (sweeping scratchMemory round t rounds hop).runFrom s' := by
    rw [provided, runFrom_bind, runFrom_get]
    dsimp only
    rw [if_pos (endsInTime h ht hids)]
  rw [hruns]
  exact concurs_sweeping h (sweeping scratchMemory round t) (fun _ _ => pure ()) (fun _ => rfl) (fun _ _ => sweeping_succ _ _ _ _ _)
    (fun _ _ s _ => ⟨s.store, rfl, .of_eq fun _ => rfl⟩) rounds hop s s' hs

end Provenance.Traversal
