import Provenance.Proofs.RenamedRequests
import Provenance.Store.Memory

/-!
# Instructions over copied tables

An action *follows* another one if from related states both fail, or both give the same and leave
related states. An instruction on some handles follows the same instruction on others, over copies of
the tables that it reads: what it answers and what it writes depends on the contents of its operands
and not on their names.
-/

namespace Provenance

open Store

/-! ## Actions that follow others -/

namespace Action

variable {σ τ ε α β : Type} {R R' R'' : σ → τ → Prop}

/-- From related states both actions fail, or both give the same and leave related states. -/
def Follows (R R' : σ → τ → Prop) (a : Action σ ε α) (a' : Action τ ε α) : Prop :=
  ∀ s t, R s t → (∃ e e' s' t', a.runFrom s = (.error e, s') ∧ a'.runFrom t = (.error e', t')) ∨
    ∃ x s' t', a.runFrom s = (.ok x, s') ∧ a'.runFrom t = (.ok x, t') ∧ R' s' t'

theorem Follows.pure (x : α) : Follows R R (pure x : Action σ ε α) (pure x) :=
  fun s t h => .inr ⟨x, s, t, rfl, rfl, h⟩

theorem Follows.throw (e : ε) : Follows R R' (throw e : Action σ ε α) (throw e) :=
  fun s t _ => .inl ⟨e, e, s, t, rfl, rfl⟩

theorem Follows.modify {f : σ → σ} {g : τ → τ} (h : ∀ s t, R s t → R' (f s) (g t)) :
    Follows R R' (modify f : Action σ ε PUnit) (modify g) :=
  fun s t hs => .inr ⟨⟨⟩, f s, g t, rfl, rfl, h s t hs⟩

theorem Follows.bind {a : Action σ ε α} {a' : Action τ ε α} {f : α → Action σ ε β}
    {f' : α → Action τ ε β} (ha : Follows R R' a a') (hf : ∀ x, Follows R' R'' (f x) (f' x)) :
    Follows R R'' (a >>= f) (a' >>= f') := by
  intro s t h
  rcases ha s t h with ⟨e, e', s', t', hs, ht⟩ | ⟨x, s', t', hs, ht, h'⟩
  · exact .inl ⟨e, e', s', t', runFrom_bind_error hs f, runFrom_bind_error ht f'⟩
  · rw [runFrom_bind_ok hs, runFrom_bind_ok ht]
    exact hf x s' t' h'

theorem Follows.map {a : Action σ ε α} {a' : Action τ ε α} (g : α → β) (ha : Follows R R' a a') :
    Follows R R' (g <$> a) (g <$> a') := by
  intro s t h
  rw [runFrom_map, runFrom_map]
  rcases ha s t h with ⟨e, e', s', t', hs, ht⟩ | ⟨x, s', t', hs, ht, h'⟩
  · rw [hs, ht]
    exact .inl ⟨e, e', s', t', rfl, rfl⟩
  · rw [hs, ht]
    exact .inr ⟨g x, s', t', rfl, rfl, h'⟩

theorem Follows.forM {f : β → Action σ ε PUnit} {f' : β → Action τ ε PUnit} {xs : List β}
    (h : ∀ x ∈ xs, Follows R R (f x) (f' x)) : Follows R R (xs.forM f) (xs.forM f') := by
  induction xs with
  | nil => exact .pure _
  | cons x xs ih =>
    rw [forM_cons, forM_cons]
    exact (h x List.mem_cons_self).bind fun _ => ih fun y hy => h y (List.mem_cons_of_mem x hy)

theorem Follows.foldlM {f : β → α → Action σ ε β} {f' : β → α → Action τ ε β} {xs : List α}
    (h : ∀ y x, Follows R R (f y x) (f' y x)) (y : β) :
    Follows R R (xs.foldlM f y) (xs.foldlM f' y) := by
  induction xs generalizing y with
  | nil => exact .pure _
  | cons x xs ih =>
    rw [List.foldlM_cons, List.foldlM_cons]
    exact (h y x).bind ih

theorem Follows.along {σ' τ' : Type} {Q Q' : σ' → τ' → Prop} {l : Lens σ' σ} {l' : Lens τ' τ}
    {a : Action σ ε α} {a' : Action τ ε α} (ha : Follows R R' a a')
    (hget : ∀ s t, Q s t → R (l.get s) (l'.get t))
    (hset : ∀ s t x y, Q s t → R' x y → Q' (l.set x s) (l'.set y t)) :
    Follows Q Q' (a.along l) (a'.along l') := by
  intro s t h
  rw [runFrom_along, runFrom_along]
  rcases ha _ _ (hget s t h) with ⟨e, e', s', t', hs, ht⟩ | ⟨x, s', t', hs, ht, h'⟩
  · rw [hs, ht]
    exact .inl ⟨e, e', _, _, rfl, rfl⟩
  · rw [hs, ht]
    exact .inr ⟨x, _, _, rfl, rfl, hset s t s' t' h h'⟩

/-- What is known after both actions may be less. -/
theorem Follows.imp {a : Action σ ε α} {a' : Action τ ε α} (ha : Follows R R' a a')
    (h : ∀ s t, R' s t → R'' s t) : Follows R R'' a a' := by
  intro s t hst
  rcases ha s t hst with herror | ⟨x, s', t', hs, ht, h'⟩
  · exact .inl herror
  · exact .inr ⟨x, s', t', hs, ht, h s' t' h'⟩

end Action

open Action

/-! ## Requests -/

/-- A request to the first backend is followed by the same under other names to the second one. The
relation of their states depends on the tables that are known. -/
structure Backend.Tracks {σ τ : Type} (b : Backend σ) (b' : Backend τ) (T : String → String)
    (W : Set String) (R : Set String → σ → τ → Prop) : Prop where
  execute : ∀ closed {D E ss ss'}, Imitates T W D ss ss' E →
    Follows (R D) (R E) (b.execute (.batch closed ss)) (b'.execute (.batch closed ss'))
  queryRows : ∀ closed {D E ss ss'}, Imitates T W D ss ss' E →
    Follows (R D) (R E) (b.queryRows (.batch closed ss)) (b'.queryRows (.batch closed ss'))
  mono : ∀ D E s t, E ⊆ D → R D s t → R E s t
  scratch : ∀ table, IsScratch table → table ∈ W ∧ T table = table

namespace Backend.Tracks

theorem memory {T : String → String} {W U : Set String} (hT : Separates T W U)
    (hscratch : ∀ table, IsScratch table → table ∈ W ∧ T table = table) :
    Backend.Tracks memory memory T W (fun D => Staged T U D) := by
  have hshown : ∀ closed {D E ss ss'}, Imitates T W D ss ss' E →
      Follows (Staged T U D) (Staged T U E) (runShown (.batch closed ss))
        (runShown (.batch closed ss')) := by
    intro closed D E ss ss' himitates db db' h
    simp only [runShown, runFrom_of, Database.run]
    rcases himitates.runAll hT h closed none with
      ⟨e, e', x, x', hx, hx'⟩ | ⟨answer, x, x', hx, hx', hx''⟩
    · rw [hx, hx']
      exact .inl ⟨_, _, x, x', rfl, rfl⟩
    · rw [hx, hx']
      exact .inr ⟨_, x, x', rfl, rfl, hx''⟩
  refine ⟨fun closed _ _ _ _ h => (hshown closed h).bind fun _ => .pure _, hshown, ?_, hscratch⟩
  intro D E db db' hE h
  exact ⟨h.copies.mono hE, fun _ hname => h.subset (hE hname)⟩

variable {σ τ : Type} {b : Backend σ} {b' : Backend τ} {T : String → String} {W D : Set String}
  {R : Set String → σ → τ → Prop} (h : b.Tracks b' T W R)

include h

theorem perform {closed : Bool} {E : Set String} {ss ss' : List Statement}
    (hss : Imitates T W D ss ss' E) :
    Follows (R D) (R E) (b.perform (.batch closed ss)) (b'.perform (.batch closed ss')) :=
  (h.execute closed hss).bind fun _ => .pure _

theorem select {q q' : Selection} (hq : q.Matches T D q') :
    Follows (R D) (R D) (b.queryRows (.single (.select q))) (b'.queryRows (.single (.select q'))) :=
  h.queryRows false (.select hq .nil)

theorem count {table copy : String} (ht : HasCopy T D table copy) :
    Follows (R D) (R D) (b.count table) (b'.count copy) := by
  refine (h.execute false (.select (.countOf ht) .nil)).bind fun output => ?_
  split
  · exact .pure _
  · exact .throw _

/-! ## Scratch tables -/

/-- The relation of states with scratch tables. -/
def Tidy (R : Set String → σ → τ → Prop) (D : Set String) (s : Scratch σ) (t : Scratch τ) : Prop :=
  s.tables = t.tables ∧ (∀ table ∈ s.tables, IsScratch table) ∧ R D s.store t.store

theorem inScratch : (b.along Scratch.storeLens).Tracks (b'.along Scratch.storeLens) T W (Tidy R) where
  execute closed _ _ _ _ hss := (h.execute closed hss).along (fun _ _ hst => hst.2.2)
    fun _ _ _ _ hst hxy => ⟨hst.1, hst.2.1, hxy⟩
  queryRows closed _ _ _ _ hss := (h.queryRows closed hss).along (fun _ _ hst => hst.2.2)
    fun _ _ _ _ hst hxy => ⟨hst.1, hst.2.1, hxy⟩
  mono _ _ _ _ hE hst := ⟨hst.1, hst.2.1, h.mono _ _ _ _ hE hst.2.2⟩
  scratch := h.scratch

theorem finish : Follows (Tidy R D) (Tidy R D) (Scratch.finish b) (Scratch.finish b') := by
  rintro s t ⟨htables, hscratch, hst⟩
  simp only [Scratch.finish, runFrom_bind, runFrom_get, runFrom_set, ← htables]
  split
  · exact .inr ⟨_, _, _, rfl, rfl, rfl, fun _ ht => absurd ht List.not_mem_nil, hst⟩
  · obtain ⟨E, hE, himitates⟩ := Imitates.discards (D := D) fun table ht =>
      h.scratch table (hscratch table ht)
    have hperform : Follows (Tidy R D) (Tidy R D)
        ((b.perform (.lines (s.tables.map .discard))).along Scratch.storeLens)
        ((b'.perform (.lines (s.tables.map .discard))).along Scratch.storeLens) :=
      (h.perform himitates).along (fun _ _ hst => hst.2.2) fun _ _ _ _ hst hxy =>
        ⟨hst.1, hst.2.1, h.mono _ _ _ _ hE hxy⟩
    exact hperform _ _ ⟨rfl, fun _ ht => absurd ht List.not_mem_nil, hst⟩

/-- Scratch tables come and go on both sides. -/
theorem within {α : Type} {body : Backend (Scratch σ) → Action (Scratch σ) BackendError α}
    {body' : Backend (Scratch τ) → Action (Scratch τ) BackendError α}
    (hbody : Follows (Tidy R D) (Tidy R D) (body (b.along Scratch.storeLens))
      (body' (b'.along Scratch.storeLens))) :
    Follows (R D) (R D) (Scratch.within b body) (Scratch.within b' body') := by
  intro s t hst
  simp only [Scratch.within, runFrom_of]
  rcases hbody (Scratch.start s) (Scratch.start t) ⟨rfl, fun _ ht => absurd ht List.not_mem_nil, hst⟩
    with ⟨e, e', s', t', hs, ht⟩ | ⟨x, s', t', hs, ht, h'⟩
  · rw [hs, ht]
    exact .inl ⟨e, e', _, _, rfl, rfl⟩
  · rw [hs, ht]
    rcases h.finish _ _ h' with ⟨e, e', s'', t'', hs, ht⟩ | ⟨y, s'', t'', hs, ht, h''⟩
    · simp only [hs, ht]
      exact .inl ⟨e, e', _, _, rfl, rfl⟩
    · simp only [hs, ht]
      exact .inr ⟨x, _, _, rfl, rfl, h''.2.2⟩

omit h in
/-- What comes after a scratch table is created knows it. -/
theorem createIntegers_bind {α : Type} {b : Backend (Scratch σ)} {b' : Backend (Scratch τ)}
    (h : b.Tracks b' T W (Tidy R)) {name : String} (hname : IsScratch (scratchPrefix ++ name))
    {columns : List String} {next : String → Action (Scratch σ) BackendError α}
    {next' : String → Action (Scratch τ) BackendError α}
    (hnext : ∀ E, D ⊆ E → IsWritten T W E (scratchPrefix ++ name) (scratchPrefix ++ name) →
      Follows (Tidy R E) (Tidy R E) (next (scratchPrefix ++ name)) (next' (scratchPrefix ++ name))) :
    Follows (Tidy R D) (Tidy R D) (Scratch.createIntegers b name columns >>= next)
      (Scratch.createIntegers b' name columns >>= next') := by
  obtain ⟨hwritten, hsame⟩ := h.scratch _ hname
  have hsubset : D ⊆ insert (scratchPrefix ++ name) D := Set.subset_insert _ D
  have hnew : IsWritten T W (insert (scratchPrefix ++ name) D) (scratchPrefix ++ name)
      (scratchPrefix ++ name) := ⟨⟨.inl rfl, hsame⟩, hwritten⟩
  simp only [Scratch.createIntegers, Scratch.create, bind_assoc, pure_bind]
  refine (h.perform (.discard hwritten hsame (.create hnew .nil))).bind fun _ =>
    (Follows.modify ?_).bind fun _ =>
      (hnext _ hsubset hnew).imp fun s t hst => h.mono _ _ s t hsubset hst
  rintro s t ⟨htables, hscratch, hst⟩
  have hcontains : t.tables.contains (scratchPrefix ++ name)
      = s.tables.contains (scratchPrefix ++ name) := by rw [htables]
  unfold Scratch.remember
  rw [hcontains]
  split
  · exact ⟨htables, hscratch, hst⟩
  · refine ⟨by simp only [htables], fun table ht => ?_, hst⟩
    obtain ht | ht := List.mem_append.1 ht
    · exact hscratch table ht
    · rw [List.mem_singleton.1 ht]; exact hname

end Backend.Tracks

end Provenance
