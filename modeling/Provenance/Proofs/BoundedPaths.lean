import Mathlib.Data.List.Perm.Subperm
import Provenance.Proofs.SweepRounds

/-!
# Paths of bounded length

The backward sweep of a traversal finds, in its round of some number, the vertices at just this distance
from the destinations. The forward sweep finds the vertices at just this distance from the sources that
are near enough to the destinations. So the vertices written lie on walks of bounded length, and all that
do are written.
-/

namespace Provenance.Traversal

open Store Database IntegerTable Action

variable {E : List Connection} {S D F R found : List Int} {u v w : Int} {notes : List Note} {k m : ℕ}

/-- If those of some vertices that are reached are reached as often as they are among these and any other
vertex is reached once, this stays so when vertices are reached that were not, and are not among them. -/
theorem count_append_new {new : List Int} (hcounts : ∀ v ∈ R, R.count v = if v ∈ S then S.count v else 1)
    (hnodup : new.Nodup) (hapart : ∀ v ∈ new, v ∉ R ∧ v ∉ S) :
    ∀ v ∈ R ++ new, (R ++ new).count v = if v ∈ S then S.count v else 1 := by
  intro v hv
  rw [List.count_append]
  by_cases hold : v ∈ R
  · have hnew : v ∉ new := fun hv => (hapart v hv).1 hold
    rw [hcounts v hold, List.count_eq_zero_of_not_mem hnew, Nat.add_zero]
  · have hnew := (List.mem_append.1 hv).resolve_left hold
    rw [List.count_eq_zero_of_not_mem hold, List.count_eq_one_of_mem hnodup hnew, if_neg (hapart v hnew).2]

/-! ## The backward sweep -/

/-- The notes are those of the edges to vertices at less than some distance from the destinations, with one
more than the distance. -/
def NotesBelow (E : List Connection) (D : List Int) (k : ℕ) (notes : List Note) : Prop :=
  ∀ n, n ∈ notes ↔ Joined E n.src n.dst ∧ ∃ i : ℕ, distance E [n.dst] D = i ∧ n.depth = i + 1 ∧ i < k

/-- The vertices within some distance of the destinations. -/
def ReachedWithin (E : List Connection) (D : List Int) (k : ℕ) (R : List Int) : Prop :=
  ∀ v, v ∈ R ↔ ∃ i : ℕ, i ≤ k ∧ distance E [v] D = i

namespace ReachedWithin

theorem start (hR : ∀ v, v ∈ R ↔ v ∈ D) : ReachedWithin E D 0 R := fun v => by
  simp only [Nat.le_zero, exists_eq_left, distance_eq_zero]
  simp [hR]

variable (h : ReachedWithin E D k R)
include h

theorem not_mem : v ∉ R ↔ ¬ distance E [v] D ≤ k := by
  rw [h, ENat.le_natCast_iff]
  exact not_congr (exists_congr fun i => and_comm)

/-- One round further. -/
theorem step {new : List Int} (hnew : ∀ v, v ∈ new ↔ distance E [v] D = (k + 1 : ℕ)) :
    ReachedWithin E D (k + 1) (R ++ new) := fun v => by
  rw [List.mem_append, h, hnew]
  simp only [Nat.le_add_one_iff, or_and_right, exists_or, exists_eq_left]

/-- If nothing is at this distance, nothing is further away. -/
theorem settled (hne : ∀ v, distance E [v] D ≠ k) (j : ℕ) : ReachedWithin E D (k + j) R := fun v => by
  rw [h]
  exact exists_congr fun i => ⟨fun ⟨hi, hv⟩ => ⟨by omega, hv⟩, fun ⟨_, hv⟩ => ⟨(lt_of_distance_ne hne hv).le, hv⟩⟩

end ReachedWithin

/-- The lists after a number of backward rounds: the frontier is at just this distance from the
destinations, what is nearer has been reached, and the edges into that are noted. -/
structure Backward (E : List Connection) (D : List Int) (k : ℕ) (F R : List Int) (notes : List Note) : Prop where
  frontier : ∀ v, v ∈ F ↔ distance E [v] D = k
  reached : ReachedWithin E D k R
  noted : NotesBelow E D k notes
  distinct : k ≠ 0 → F.Nodup

namespace Backward

theorem start : Backward E D 0 D D [] where
  frontier v := by
    rw [distance_eq_zero]
    simp
  reached := .start fun _ => Iff.rfl
  noted n := by simp
  distinct h := absurd rfl h

variable (h : Backward E D k F R notes)
include h

/-- One round. -/
theorem step (hfound : found.Nodup) (hmem : ∀ u, u ∈ found ↔ ∃ e ∈ E, e.dst ∈ F ∧ e.src = u) :
    Backward E D (k + 1) (found.filter (· ∉ R)) (R ++ found.filter (· ∉ R))
      (notes ++ (E.filter (·.dst ∈ F)).map (Connection.note (k + 1))) := by
  have hfrontier : ∀ v, v ∈ found.filter (· ∉ R) ↔ distance E [v] D = (k + 1 : ℕ) := fun v => by
    rw [List.mem_filter, hmem, decide_eq_true_eq, h.reached.not_mem, distance_eq_succ_left]
    refine and_congr_left fun _ => ⟨?_, ?_⟩
    · rintro ⟨e, he, hdst, rfl⟩
      exact ⟨e.dst, ⟨e, he, rfl, rfl⟩, (h.frontier e.dst).1 hdst⟩
    · rintro ⟨w, ⟨e, he, rfl, rfl⟩, hw⟩
      exact ⟨e, he, (h.frontier e.dst).2 hw, rfl⟩
  refine ⟨hfrontier, h.reached.step hfrontier, fun n => ?_, fun _ => hfound.filter _⟩
  · rw [List.mem_append, h.noted, List.mem_map]
    constructor
    · rintro (⟨hj, i, hi, hdepth, hlt⟩ | ⟨e, he, rfl⟩)
      · exact ⟨hj, i, hi, hdepth, by omega⟩
      · obtain ⟨he, hdst⟩ := List.mem_filter.1 he
        exact ⟨⟨e, he, rfl, rfl⟩, k, (h.frontier e.dst).1 (of_decide_eq_true hdst), rfl, by omega⟩
    · rintro ⟨⟨e, he, hsrc, hdst⟩, i, hi, hdepth, hlt⟩
      obtain hlt | rfl := Nat.lt_or_eq_of_le (Nat.le_of_lt_succ hlt)
      · exact .inl ⟨⟨e, he, hsrc, hdst⟩, i, hi, hdepth, hlt⟩
      · refine .inr ⟨e, List.mem_filter.2 ⟨he, decide_eq_true ((h.frontier e.dst).2 (hdst ▸ hi))⟩, ?_⟩
        obtain ⟨src, dst, depth⟩ := n
        cases hsrc
        cases hdst
        cases hdepth
        rfl

/-- With an empty frontier, further rounds would change nothing. -/
theorem settled (hempty : F = []) (j : ℕ) : Backward E D (k + j) F R notes := by
  have hne : ∀ v, distance E [v] D ≠ k := fun v hv => by
    have := (h.frontier v).2 hv
    rw [hempty] at this
    cases this
  refine ⟨fun v => ?_, h.reached.settled hne j, fun n => ?_, fun _ => hempty ▸ List.nodup_nil⟩
  · rw [hempty]
    exact ⟨nofun, fun hv => absurd hv (distance_ne_add hne j v)⟩
  · rw [h.noted]
    refine and_congr_right fun _ => exists_congr fun i => ?_
    exact ⟨fun ⟨hi, hdepth, hk⟩ => ⟨hi, hdepth, by omega⟩,
      fun ⟨hi, hdepth, _⟩ => ⟨hi, hdepth, lt_of_distance_ne hne hi⟩⟩

/-- A frontier after some rounds is no longer than the list of edges. -/
theorem length_le (hk : k ≠ 0) : F.length ≤ E.length := by
  obtain ⟨k, rfl⟩ := Nat.exists_eq_succ_of_ne_zero hk
  have hsub : F ⊆ E.map Connection.src := fun v hv => by
    obtain ⟨⟨w, ⟨e, he, rfl, -⟩, -⟩, -⟩ := distance_eq_succ_left.1 ((h.frontier v).1 hv)
    exact List.mem_map_of_mem he
  simpa using ((h.distinct hk).subperm hsub).length_le

end Backward

/-! ## The forward sweep -/

/-- After some steps the destinations are still within the bound. -/
def Fits (E : List Connection) (D : List Int) (m j : ℕ) (v : Int) : Prop :=
  ∃ b : ℕ, distance E [v] D = b ∧ j + b ≤ m

theorem Fits.of_joined (h : Joined E u w) {j : ℕ} (hw : Fits E D m (j + 1) w) : Fits E D m j u := by
  obtain ⟨b, hb, hle⟩ := hw
  obtain ⟨a, ha, hab⟩ := exists_distance_of_joined h hb
  exact ⟨a, ha, by omega⟩

/-- If no vertex that fits is at some distance from the sources, none that fits is further away. -/
theorem not_fits_add (h : ∀ v, distance E S [v] = k → ¬ Fits E D m k v) (j : ℕ) :
    ∀ v, distance E S [v] = (k + j : ℕ) → ¬ Fits E D m (k + j) v := by
  induction j with
  | zero => exact h
  | succ j ih =>
    intro v hv hfits
    obtain ⟨⟨u, hu, hj⟩, -⟩ := distance_eq_succ_right.1 hv
    exact ih u hu (hfits.of_joined hj)

/-- The lists after a number of forward rounds: the frontier is at just this distance from the sources, what
is nearer has been reached, as far as the destinations are within the bound. A source is reached as often
as it is one, any other vertex once. -/
structure Forward (E : List Connection) (S D : List Int) (m j : ℕ) (F R : List Int) : Prop where
  frontier : ∀ v, v ∈ F ↔ distance E S [v] = j ∧ Fits E D m j v
  reached : ∀ v, v ∈ R ↔ ∃ i ≤ j, distance E S [v] = i ∧ Fits E D m i v
  distinct : j ≠ 0 → F.Nodup
  counts : ∀ v ∈ R, R.count v = if v ∈ S then S.count v else 1

namespace Forward

variable {B : List Int} {j : ℕ}

theorem start (h : ReachedWithin E D m B) :
    Forward E S D m 0 (S.filter (· ∈ B)) (S.filter (· ∈ B)) := by
  have hmem : ∀ v, v ∈ S.filter (· ∈ B) ↔ distance E S [v] = (0 : ℕ) ∧ Fits E D m 0 v := fun v => by
    rw [List.mem_filter, decide_eq_true_eq, h, distance_eq_zero]
    simp only [List.mem_singleton, exists_eq_right, Fits, Nat.zero_add]
    exact and_congr_right fun _ => exists_congr fun _ => and_comm
  refine ⟨hmem, fun v => by simpa using hmem v, fun hj => absurd rfl hj, fun v hv => ?_⟩
  obtain ⟨hs, hB⟩ := List.mem_filter.1 hv
  rw [List.count_filter (p := fun v => decide (v ∈ B)) hB, if_pos hs]

variable (h : Forward E S D m j F R)
include h

/-- What the notes of the frontier lead to that is new, is one edge further from the sources. -/
theorem frontier_step (hnotes : NotesBelow E D m notes)
    (hmem : ∀ w, w ∈ found ↔ ∃ n ∈ notes, (n.src ∈ F ∧ n.depth + j ≤ m) ∧ n.dst = w) (v : Int) :
    v ∈ found.filter (· ∉ R) ↔ distance E S [v] = (j + 1 : ℕ) ∧ Fits E D m (j + 1) v := by
  rw [List.mem_filter, hmem, decide_eq_true_eq, h.reached]
  constructor
  · rintro ⟨⟨n, hn, ⟨hsrc, hdepth⟩, rfl⟩, hnew⟩
    obtain ⟨hj, b, hb, heq, hlt⟩ := (hnotes n).1 hn
    have hfits : j + 1 + b ≤ m := by omega
    obtain ⟨i, hi, hle⟩ := ENat.le_natCast_iff.1 (distance_le_succ_right.2
      (.inr ⟨n.src, ((h.frontier n.src).1 hsrc).1.le, hj⟩))
    obtain hlt | rfl := Nat.lt_or_eq_of_le hle
    · exact absurd ⟨i, by omega, hi, b, hb, by omega⟩ hnew
    · exact ⟨hi, b, hb, hfits⟩
  · rintro ⟨hv, hfits⟩
    obtain ⟨⟨u, hu, hj⟩, hnot⟩ := distance_eq_succ_right.1 hv
    have hfu := hfits.of_joined hj
    obtain ⟨b, hb, hle⟩ := hfits
    refine ⟨⟨⟨u, v, b + 1⟩, (hnotes _).2 ⟨hj, b, hb, rfl, by omega⟩, ⟨(h.frontier u).2 ⟨hu, hfu⟩, ?_⟩, rfl⟩, ?_⟩
    · show ((b : Int) + 1) + j ≤ m
      omega
    · rintro ⟨i, hi, hv', -⟩
      exact hnot (hv' ▸ by exact_mod_cast hi)

/-- One round. -/
theorem step (hnotes : NotesBelow E D m notes) (hfound : found.Nodup)
    (hmem : ∀ w, w ∈ found ↔ ∃ n ∈ notes, (n.src ∈ F ∧ n.depth + j ≤ m) ∧ n.dst = w) :
    Forward E S D m (j + 1) (found.filter (· ∉ R)) (R ++ found.filter (· ∉ R)) := by
  have hfrontier := h.frontier_step hnotes hmem
  refine ⟨hfrontier, fun v => ?_, fun _ => hfound.filter _, count_append_new h.counts (hfound.filter _)
    fun v hv => ⟨?_, ?_⟩⟩
  · rw [List.mem_append, h.reached, hfrontier]
    simp only [Nat.le_add_one_iff, or_and_right, exists_or, exists_eq_left]
  · exact of_decide_eq_true (List.mem_filter.1 hv).2
  · intro hs
    have hzero : distance E S [v] = (0 : ℕ) := distance_eq_zero.2 ⟨v, hs, List.mem_singleton_self v⟩
    rw [((hfrontier v).1 hv).1] at hzero
    exact absurd (Nat.cast_injective hzero) (Nat.succ_ne_zero j)

/-- With an empty frontier, further rounds would change nothing. -/
theorem settled (hempty : F = []) (i : ℕ) : Forward E S D m (j + i) F R := by
  have hne := not_fits_add (E := E) (S := S) (D := D) (m := m) (k := j) fun v hv hfits => by
    have := (h.frontier v).2 ⟨hv, hfits⟩
    rw [hempty] at this
    cases this
  refine ⟨fun v => ?_, fun v => ?_, fun _ => hempty ▸ List.nodup_nil, h.counts⟩
  · rw [hempty]
    exact ⟨nofun, fun hv => absurd hv.2 (hne i v hv.1)⟩
  · rw [h.reached]
    refine exists_congr fun a => ⟨fun ⟨ha, hv⟩ => ⟨by omega, hv⟩, fun ⟨ha, hv⟩ => ⟨?_, hv⟩⟩
    by_contra hlt
    have := hne (a - j) v
    rw [show j + (a - j) = a by omega] at this
    exact this hv.1 hv.2

/-- A frontier after some rounds is no longer than the list of edges. -/
theorem length_le (hj : j ≠ 0) : F.length ≤ E.length := by
  obtain ⟨j, rfl⟩ := Nat.exists_eq_succ_of_ne_zero hj
  have hsub : F ⊆ E.map Connection.dst := fun v hv => by
    obtain ⟨⟨u, -, ⟨e, he, -, rfl⟩⟩, -⟩ := distance_eq_succ_right.1 ((h.frontier v).1 hv).1
    exact List.mem_map_of_mem he
  simpa using ((h.distinct hj).subperm hsub).length_le

/-- After as many rounds as the bound says, just the vertices on walks of bounded length are reached. -/
theorem mem_iff (hj : j = m) : v ∈ R ↔ distance E S [v] + distance E [v] D ≤ m := by
  subst hj
  rw [h.reached]
  constructor
  · rintro ⟨i, -, hi, b, hb, hle⟩
    rw [hi, hb]
    exact_mod_cast hle
  · intro hle
    obtain ⟨i, hi, -⟩ := ENat.le_natCast_iff.1 (le_self_add.trans hle)
    obtain ⟨b, hb, -⟩ := ENat.le_natCast_iff.1 (le_add_self.trans hle)
    rw [hi, hb] at hle
    have hle : i + b ≤ j := by exact_mod_cast hle
    exact ⟨i, by omega, hi, b, hb, hle⟩

end Forward

/-! ## Both sweeps -/

/-- What a traversal between vertices reads and writes: the recorded edges and those of the subject, the
vertices at which it starts and ends, and an empty target. -/
structure Searches (db : Database) (target subject source destination : Graph) (edges : List Connection)
    (kept starts ends : List Int) : Prop extends Recorded db subject edges kept where
  starts : db.HoldsIntegers source.vertexTable graphColumns (starts.map one)
  ends : db.HoldsIntegers destination.vertexTable graphColumns (ends.map one)
  target : ∀ side, db.HoldsIntegers (target.table side) graphColumns []

section Sweeps

variable {base : Database} {target subject source destination : Graph} {edges : List Connection}
  {kept starts ends : List Int}

theorem length_connectionsOf_le : (connectionsOf subject kept edges).length ≤ edges.length :=
  List.length_filter_le _ _

/-- The tables after a number of backward rounds. -/
def AfterBackward (base : Database) (E : List Connection) (D : List Int) (k : ℕ) (db : Database) : Prop :=
  ∃ F N R notes, Backward E D k F R notes ∧ Stands base F N R [notedTable notes] db

/-- The destinations are the first frontier, and reached. -/
theorem leads_start {E : List Connection}
    (h : base.HoldsIntegers destination.vertexTable graphColumns (ends.map one)) :
    Leads (Stands base [] [] [] [notedTable []])
      [.insertFrom sweepTables.frontier (.ids destination.vertexTable),
        .insertFrom sweepTables.reached (.ids sweepTables.frontier)]
      (AfterBackward base E ends 0) := by
  refine .cons (J := Stands base ends [] [] [notedTable []]) (fun db hdb => ?_) (.single fun db hdb => ?_)
  · exact Over.insertFrom (l := []) [] hdb (fun _ => rfl)
      (rows_ids (Over.reads hdb (sameName_sweepNames_table destination .vertex) h))
  · obtain ⟨db', happly, hdb'⟩ := Over.insertFrom (l := []) [_, _] hdb (fun _ => rfl) (rows_ids hdb.inFrontier)
    exact ⟨db', happly, ends, [], ends, [], .start, hdb'⟩

theorem ends_backward (h : Recorded base subject edges kept) (hsize : edges.length < 2 ^ 63) (rounds : ℕ) :
    Ends Never (Kept (AfterBackward base (connectionsOf subject kept edges) ends 0))
      (sweep scratchMemory (noteRound sweepTables subject (scratchPrefix ++ "sgconn")) sweepTables.frontier rounds 1)
      fun _ => Kept (AfterBackward base (connectionsOf subject kept edges) ends rounds) := by
  refine ends_sweep (fun k _ closed db ⟨F, N, R, notes, hback, hdb⟩ => ?_) fun k db ⟨F, N, R, notes, hback, hdb⟩ => ?_
  · obtain ⟨db', hrun, found, ⟨hnodup, hmem⟩, hdb'⟩ := leads_noteRound h (1 + k) closed db hdb
    rw [Int.add_comm 1] at hrun hdb'
    exact ⟨db', by rw [Int.add_comm 1]; exact hrun, _, _, _, _, hback.step hnodup hmem, hdb'⟩
  · refine ⟨_, _, hdb.inFrontier, ?_, fun hempty j =>
      ⟨F, N, R, notes, hback.settled (List.map_eq_nil_iff.1 hempty) j, hdb⟩⟩
    rw [List.length_map]
    exact ((hback.length_le (Nat.succ_ne_zero k)).trans length_connectionsOf_le).trans_lt hsize

/-- The tables after a number of forward rounds. -/
def AfterForward (base : Database) (E : List Connection) (S D : List Int) (m j : ℕ) (db : Database) : Prop :=
  ∃ F N R notes, NotesBelow E D m notes ∧ Forward E S D m j F R ∧ Stands base F N R [notedTable notes] db

/-- Between the sweeps, the sources that the first one has reached are the new frontier. -/
theorem ends_turn {E : List Connection} (h : base.HoldsIntegers source.vertexTable graphColumns (starts.map one))
    (maxDepth : ℕ) :
    Ends Never (Kept (AfterBackward base E ends maxDepth)) (restart scratchMemory sweepTables source) fun _ =>
      Kept (AfterForward base E starts ends maxDepth 0) := by
  rintro s ⟨htables, F, N, R, notes, hback, hdb⟩
  exact (ends_restart h).mono (fun _ hs => hs) (fun _ s hs =>
    ⟨hs.1, _, N, _, notes, hback.noted, .start hback.reached, hs.2⟩) s ⟨htables, hdb⟩

theorem ends_forward {E : List Connection} (hsize : E.length < 2 ^ 63) (maxDepth : ℕ) :
    Ends Never (Kept (AfterForward base E starts ends maxDepth 0))
      (sweep scratchMemory (followRound sweepTables (scratchPrefix ++ "sgconn") maxDepth) sweepTables.frontier
        maxDepth 0)
      fun _ => Kept (AfterForward base E starts ends maxDepth maxDepth) := by
  refine ends_sweep (fun k _ closed db ⟨F, N, R, notes, hnotes, hforward, hdb⟩ => ?_)
    fun k db ⟨F, N, R, notes, hnotes, hforward, hdb⟩ => ?_
  · obtain ⟨db', hrun, found, ⟨hnodup, hmem⟩, hdb'⟩ := leads_followRound maxDepth (0 + k) closed db hdb
    exact ⟨db', hrun, _, _, _, notes, hnotes, hforward.step hnotes hnodup (by simpa using hmem), hdb'⟩
  · refine ⟨_, _, hdb.inFrontier, ?_, fun hempty j =>
      ⟨F, N, R, notes, hnotes, hforward.settled (List.map_eq_nil_iff.1 hempty) j, hdb⟩⟩
    rw [List.length_map]
    exact (hforward.length_le (Nat.succ_ne_zero k)).trans_lt hsize

/-- What both sweeps find is written. -/
theorem path_writes (h : Searches base target subject source destination edges kept starts ends)
    (hsize : edges.length < 2 ^ 63) (maxDepth : ℕ) :
    ∃ (vertices : List Int) (db : Database),
      ((Instruction.path target subject source destination maxDepth).execute Backend.memory).runFrom base
        = (.ok none, db) ∧
      (∃ F, Forward (connectionsOf subject kept edges) starts ends maxDepth maxDepth F vertices) ∧
      Written base target vertices (between (connectionsOf subject kept edges) vertices) db := by
  rw [Instruction.execute, path]
  refine exists_written ?_
  refine ends_createIntegers [] (List.Sublist.refl _) (by decide) (by simp) ?_
  refine ends_createIntegers _ (List.Sublist.refl _) (by decide) (by simp [scratchPrefix]) ?_
  refine ends_createIntegers _ (List.Sublist.refl _) (by decide) (by simp [scratchPrefix]) ?_
  refine ends_createIntegers _ (List.Sublist.refl _) (by decide) (by simp [scratchPrefix]) ?_
  refine Ends.bind (J := fun _ => Kept (AfterBackward base (connectionsOf subject kept edges) ends 0)) ?_ fun _ => ?_
  · exact ends_performAll fun closed db hdb => leads_start h.ends closed db (Over.reverse hdb)
  rw [Int.toNat_natCast]
  refine (ends_backward h.toRecorded hsize maxDepth).bind fun _ => ?_
  refine (ends_turn h.starts maxDepth).bind fun _ => ?_
  refine (ends_forward (length_connectionsOf_le.trans_lt hsize) maxDepth).bind fun _ => ?_
  rintro s ⟨htables, F, N, R, notes, -, hforward, hdb⟩
  exact (ends_writeInduced h.toRecorded h.target).mono (fun _ hs => hs) (fun _ s hs =>
    ⟨hs.1, R, ⟨F, hforward⟩, hs.2⟩) s ⟨htables, hdb⟩

/-- The vertices on walks of at most `maxDepth` edges of the subject from a source to a destination are
written, a source as often as it is one, any other vertex once, and the subject's edges between them. As
the store counts rows with a word, it has fewer than `2 ^ 63` edges. -/
theorem path_bounded (h : Searches base target subject source destination edges kept starts ends)
    (hsize : edges.length < 2 ^ 63) (maxDepth : ℕ) :
    ∃ (vertices : List Int) (db : Database),
      ((Instruction.path target subject source destination maxDepth).execute Backend.memory).runFrom base
        = (.ok none, db) ∧
      (∀ v, v ∈ vertices ↔ distance (connectionsOf subject kept edges) starts [v]
        + distance (connectionsOf subject kept edges) [v] ends ≤ maxDepth) ∧
      (∀ v ∈ vertices, vertices.count v = if v ∈ starts then starts.count v else 1) ∧
      Written base target vertices (between (connectionsOf subject kept edges) vertices) db := by
  obtain ⟨vertices, db, hrun, ⟨F, hforward⟩, hwritten⟩ := path_writes h hsize maxDepth
  exact ⟨vertices, db, hrun, fun v => hforward.mem_iff rfl, hforward.counts, hwritten⟩

end Sweeps

/-- Two ways from one vertex to another, and a shortcut. -/
def diamond : Document where
  vertices := [⟨1, none, []⟩, ⟨2, none, []⟩, ⟨3, none, []⟩, ⟨4, none, []⟩]
  edges := [⟨10, 1, 2, []⟩, ⟨11, 2, 4, []⟩, ⟨12, 1, 3, []⟩, ⟨13, 1, 4, []⟩]

/-- A store with a document and with a graph of some vertices, one of others, and an empty one. -/
def charted (d : Document) (starts ends : List Int) : Database :=
  [("trace_1", starts), ("trace_2", ends), ("trace_3", [])].foldl (fun db (name, ns) =>
    (db.add ⟨(Graph.mk name).vertexTable, graphColumns, [], (ns.map one).map integers⟩).add
      ⟨(Graph.mk name).edgeTable, graphColumns, [], []⟩) ((Storage.load d).runFrom Storage.fresh).2

theorem path_bounded_diamond : ∃ (vertices : List Int) (db : Database),
    ((Instruction.path ⟨"trace_3"⟩ .base ⟨"trace_1"⟩ ⟨"trace_2"⟩ 1).execute Backend.memory).runFrom
        (charted diamond [1] [4]) = (.ok none, db) ∧
      (∀ v, v ∈ vertices ↔ distance (connectionsOf .base [] [⟨10, 1, 2⟩, ⟨11, 2, 4⟩, ⟨12, 1, 3⟩, ⟨13, 1, 4⟩]) [1] [v]
        + distance (connectionsOf .base [] [⟨10, 1, 2⟩, ⟨11, 2, 4⟩, ⟨12, 1, 3⟩, ⟨13, 1, 4⟩]) [v] [4] ≤ (1 : ℕ)) ∧
      db.HoldsIntegers "trace_3_vertex" graphColumns (vertices.map one) := by
  have h : Searches (charted diamond [1] [4]) ⟨"trace_3"⟩ .base ⟨"trace_1"⟩ ⟨"trace_2"⟩
      [⟨10, 1, 2⟩, ⟨11, 2, 4⟩, ⟨12, 1, 3⟩, ⟨13, 1, 4⟩] [] [1] [4] :=
    ⟨⟨by decide +kernel, fun h => absurd h (by decide)⟩, by decide +kernel, by decide +kernel, fun side => by
      cases side <;> decide +kernel⟩
  obtain ⟨vertices, db, hrun, hmem, -, hwritten⟩ := path_bounded h (by decide) 1
  exact ⟨vertices, db, hrun, hmem, hwritten.vertices⟩

end Provenance.Traversal
