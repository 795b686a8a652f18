import Mathlib.Data.List.Basic
import Provenance.Query.Grammar

/-!
# Scans of longer texts

What a scan does with a text and what it does with the same text and more behind it. The scan may look
at the end of the shorter text: inside parentheses it passes over line feeds, and so it may go on where
it had to stop before. It is shown to read the same, unless it is *stuck* at the end of the shorter
text, which no scan is that comes to the end of its parentheses.
-/

namespace Provenance.Query

theorem Cursor.next_of_rest_nil {s : Cursor} (h : s.rest = []) : s.next = s := by
  unfold next
  split
  · rfl
  · next hcons => rw [h] at hcons; cases hcons

theorem Cursor.position_next {s : Cursor} {c : Char} {r : List Char} (h : s.rest = c :: r) :
    s.next.position = s.position.after c := by
  unfold next
  split
  · next hnil => rw [h] at hnil; cases hnil
  · next hcons => rw [h] at hcons; cases hcons; rfl

namespace Scan

variable {α β : Type}

/-! ## Outcomes -/

theorem bind_ok_iff {p : Scan α} {f : α → Scan β} {s u : Cursor} {b : β} :
    (p >>= f) s = .ok (b, u) ↔ ∃ a t, p s = .ok (a, t) ∧ f a t = .ok (b, u) := by
  cases h : p s with
  | error e => simp [Bind.bind, StateT.bind, Except.bind, h]
  | ok r =>
    obtain ⟨a, t⟩ := r
    simp [Bind.bind, StateT.bind, Except.bind, h]

theorem bind_ok {p : Scan α} {f : α → Scan β} {s t : Cursor} {a : α} (h : p s = .ok (a, t)) :
    (p >>= f) s = f a t := by
  simp [Bind.bind, StateT.bind, Except.bind, h]

/-- What a scan goes on with matters only where the scan ends. -/
theorem bind_congr_ok {p : Scan α} {f f' : α → Scan β} {s : Cursor}
    (h : ∀ a t, p s = .ok (a, t) → f a t = f' a t) : (p >>= f) s = (p >>= f') s := by
  simp only [Bind.bind, StateT.bind, Except.bind]
  cases hp : p s with
  | error e => rfl
  | ok r => exact h r.1 r.2 hp

theorem commit_ok_iff {p : Scan α} {s : Cursor} {r : α × Cursor} : commit p s = .ok r ↔ p s = .ok r := by
  unfold commit
  cases p s <;> simp

theorem expecting_ok_iff {what : Expectation} {p : Scan α} {s : Cursor} {r : α × Cursor} :
    expecting what p s = .ok r ↔ p s = .ok r := by
  unfold expecting
  cases p s <;> simp

/-- The scan meets an uncommitted setback. -/
def Misses (p : Scan α) (s : Cursor) : Prop := ∃ e, p s = .error e ∧ e.committed = false

/-- Each setback of the scan is committed. -/
def Firm (p : Scan α) : Prop := ∀ s, ¬ Misses p s

theorem bind_misses_iff {p : Scan α} {f : α → Scan β} {s : Cursor} :
    Misses (p >>= f) s ↔ Misses p s ∨ ∃ a t, p s = .ok (a, t) ∧ Misses (f a) t := by
  cases h : p s with
  | error e => simp [Misses, Bind.bind, StateT.bind, Except.bind, h]
  | ok r =>
    obtain ⟨a, t⟩ := r
    simp [Misses, Bind.bind, StateT.bind, Except.bind, h]

namespace Firm

variable {p : Scan α}

theorem pure (a : α) : Firm (pure a : Scan α) := by
  rintro s ⟨e, he, -⟩
  cases he

theorem stop (what : Expectation) : Firm (stop what : Scan α) := by
  rintro s ⟨e, he, hc⟩
  cases he
  cases hc

theorem commit (p : Scan α) : Firm (commit p) := by
  rintro s ⟨e, he, hc⟩
  unfold Scan.commit at he
  split at he
  · cases he
  · cases he
    cases hc

theorem bind {f : α → Scan β} (hp : Firm p) (hf : ∀ a, Firm (f a)) : Firm (p >>= f) := by
  intro s h
  obtain h | ⟨a, t, -, h⟩ := bind_misses_iff.1 h
  · exact hp s h
  · exact hf a t h

theorem option (p : Scan α) : Firm (option p) := by
  rintro s ⟨e, he, hc⟩
  unfold Scan.option at he
  split at he
  · cases he
  · split at he
    · next hcommitted =>
      cases he
      rw [hc] at hcommitted
      cases hcommitted
    · cases he

theorem repeatUpTo (p : Scan α) (n : Nat) (found : List α) : Firm (repeatUpTo p n found) := by
  rintro s ⟨e, he, hc⟩
  induction n generalizing found s with
  | zero => cases he
  | succ n ih =>
    rw [Scan.repeatUpTo] at he
    split at he
    · exact ih _ _ he
    · split at he
      · next hcommitted =>
        cases he
        rw [hc] at hcommitted
        cases hcommitted
      · cases he

theorem many (p : Scan α) : Firm (many p) := fun s => repeatUpTo p _ _ s

theorem foldlM {f : β → α → Scan β} (hf : ∀ b a, Firm (f b a)) (as : List α) (b : β) :
    Firm (as.foldlM f b) := by
  induction as generalizing b with
  | nil => exact pure b
  | cons a as ih => exact (hf b a).bind ih

end Firm

/-! ## How much is read -/

/-- The scan reads at least `n` characters. -/
def Reads (n : Nat) (p : Scan α) : Prop :=
  ∀ s a t, p s = .ok (a, t) → t.rest.length + n ≤ s.rest.length

namespace Reads

variable {m n : Nat} {p q : Scan α}

theorem mono (h : Reads n p) (hmn : m ≤ n) : Reads m p := fun s a t ha => by
  have := h s a t ha
  omega

theorem pure (a : α) : Reads 0 (pure a : Scan α) := by
  rintro s b t h
  cases h
  exact Nat.le_refl _

theorem miss : Reads n (miss : Scan α) := nofun

theorem stop (what : Expectation) : Reads n (stop what : Scan α) := nofun

theorem bind {f : α → Scan β} (hp : Reads m p) (hf : ∀ a, Reads n (f a)) : Reads (m + n) (p >>= f) := by
  intro s b u h
  obtain ⟨a, t, ha, hb⟩ := bind_ok_iff.1 h
  have h₁ := hp s a t ha
  have h₂ := hf a t b u hb
  omega

/-- What is read first counts. -/
theorem first {f : α → Scan β} (hp : Reads m p) (hf : ∀ a, Reads 0 (f a)) : Reads m (p >>= f) := hp.bind hf

/-- What is read then counts. -/
theorem after {f : α → Scan β} (hp : Reads 0 p) (hf : ∀ a, Reads n (f a)) : Reads n (p >>= f) := by
  simpa using hp.bind hf

theorem commit (hp : Reads n p) : Reads n (commit p) := fun s a t h => hp s a t (commit_ok_iff.1 h)

theorem expecting {what : Expectation} (hp : Reads n p) : Reads n (expecting what p) := fun s a t h =>
  hp s a t (expecting_ok_iff.1 h)

theorem either (hp : Reads n p) (hq : Reads n q) : Reads n (either p q) := by
  intro s a t h
  unfold Scan.either at h
  split at h
  · next heq => cases h; exact hp _ _ _ heq
  · split at h
    · cases h
    · exact hq _ _ _ h

theorem option (hp : Reads 0 p) : Reads 0 (option p) := by
  intro s o t h
  unfold Scan.option at h
  split at h
  · next heq => cases h; exact hp _ _ _ heq
  · split at h
    · cases h
    · cases h; exact Nat.le_refl _

theorem repeatUpTo (hp : Reads 0 p) (k : Nat) (found : List α) : Reads 0 (repeatUpTo p k found) := by
  intro s as t h
  induction k generalizing found s with
  | zero => cases h; exact Nat.le_refl _
  | succ k ih =>
    rw [Scan.repeatUpTo] at h
    split at h
    · next a u heq =>
      have h₁ := hp _ _ _ heq
      have h₂ := ih _ _ h
      omega
    · split at h
      · cases h
      · cases h; exact Nat.le_refl _

theorem many (hp : Reads 0 p) : Reads 0 (many p) := fun s => hp.repeatUpTo _ _ s

theorem foldlM {f : β → α → Scan β} (hf : ∀ b a, Reads 0 (f b a)) (as : List α) (b : β) :
    Reads 0 (as.foldlM f b) := by
  induction as generalizing b with
  | nil => exact pure b
  | cons a as ih => exact (hf b a).bind ih

theorem here : Reads 0 here := by
  intro s a t h
  cases h
  exact Nat.le_refl _

theorem skip {k : Nat} {s : Cursor} : (s.skip k).rest.length ≤ s.rest.length := by
  rw [Cursor.rest_skip, List.length_drop]
  omega

theorem charWhere (accepts : Char → Bool) : Reads 1 (charWhere accepts) := by
  intro s a t h
  unfold Scan.charWhere at h
  split at h
  · cases h
  · next heq =>
    split at h
    · cases h
      rw [Cursor.rest_next, heq]
      exact Nat.le_refl _
    · cases h

theorem char (c : Char) : Reads 1 (char c) := by
  intro s a t h
  unfold Scan.char at h
  split at h
  · cases h
  · next heq =>
    split at h
    · cases h
      rw [Cursor.rest_next, heq]
      exact Nat.le_refl _
    · cases h

theorem run (accepts : Char → Bool) : Reads 0 (run accepts) := by
  intro s a t h
  cases h
  exact skip

theorem chars (cs : List Char) : Reads 0 (chars cs) := by
  intro s a t h
  unfold Scan.chars at h
  split at h
  · cases h; exact skip
  · cases h

end Reads

/-! ## Longer texts -/

/-- The scan reads nothing where it is stuck. -/
def Balks (stuck : List Char → Prop) (p : Scan α) : Prop := ∀ s a t, stuck s.rest → p s ≠ .ok (a, t)

/-- Where it is stuck, the scan stays stuck. -/
def Stays (stuck : List Char → Prop) (p : Scan α) : Prop :=
  ∀ s a t, stuck s.rest → p s = .ok (a, t) → stuck t.rest

theorem Balks.stays {stuck : List Char → Prop} {p : Scan α} (h : Balks stuck p) : Stays stuck p :=
  fun s a t hs ha => absurd ha (h s a t hs)

theorem Balks.bind {stuck : List Char → Prop} {p : Scan α} (h : Balks stuck p) (f : α → Scan β) :
    Balks stuck (p >>= f) := by
  intro s b u hs hb
  obtain ⟨a, t, ha, -⟩ := bind_ok_iff.1 hb
  exact h s a t hs ha

theorem Balks.commit {stuck : List Char → Prop} {p : Scan α} (h : Balks stuck p) :
    Balks stuck (commit p) := fun s a t hs ha => h s a t hs (commit_ok_iff.1 ha)

theorem Balks.expecting {stuck : List Char → Prop} {p : Scan α} (h : Balks stuck p) (what : Expectation) :
    Balks stuck (expecting what p) := fun s a t hs ha => h s a t hs (expecting_ok_iff.1 ha)

theorem Balks.either {stuck : List Char → Prop} {p q : Scan α} (hp : Balks stuck p) (hq : Balks stuck q) :
    Balks stuck (either p q) := by
  intro s a t hs ha
  unfold Scan.either at ha
  split at ha
  · next heq => cases ha; exact hp _ _ _ hs heq
  · split at ha
    · cases ha
    · exact hq _ _ _ hs ha

namespace Stays

variable {stuck : List Char → Prop} {p : Scan α}

theorem pure (a : α) : Stays stuck (pure a : Scan α) := by
  intro s b t hs h
  cases h
  exact hs

theorem stop (what : Expectation) : Stays stuck (stop what : Scan α) := nofun

theorem bind {f : α → Scan β} (hp : Stays stuck p) (hf : ∀ a, Stays stuck (f a)) : Stays stuck (p >>= f) := by
  intro s b u hs hb
  obtain ⟨a, t, ha, hb⟩ := bind_ok_iff.1 hb
  exact hf a t b u (hp s a t hs ha) hb

/-- What reads nothing where it comes to be stuck. -/
theorem balks {f : α → Scan β} (hp : Stays stuck p) (hf : ∀ a, Balks stuck (f a)) : Balks stuck (p >>= f) := by
  intro s b u hs hb
  obtain ⟨a, t, ha, hb⟩ := bind_ok_iff.1 hb
  exact hf a t b u (hp s a t hs ha) hb

theorem option (hp : Stays stuck p) : Stays stuck (option p) := by
  intro s o t hs h
  unfold Scan.option at h
  split at h
  · next heq => cases h; exact hp _ _ _ hs heq
  · split at h
    · cases h
    · cases h; exact hs

theorem repeatUpTo (hp : Stays stuck p) (n : Nat) (found : List α) :
    Stays stuck (repeatUpTo p n found) := by
  intro s as t hs h
  induction n generalizing found s with
  | zero => cases h; exact hs
  | succ n ih =>
    rw [Scan.repeatUpTo] at h
    split at h
    · next a u heq => exact ih _ _ (hp _ _ _ hs heq) h
    · split at h
      · cases h
      · cases h; exact hs

theorem many (hp : Stays stuck p) : Stays stuck (many p) := fun s => hp.repeatUpTo _ _ s

theorem foldlM {f : β → α → Scan β} (hf : ∀ b a, Stays stuck (f b a)) (as : List α) (b : β) :
    Stays stuck (as.foldlM f b) := by
  induction as generalizing b with
  | nil => exact pure b
  | cons a as ih => exact (hf b a).bind ih

end Stays

/-- The second cursor stands where the first one does, in a text that goes on with `x` behind the first text. -/
structure Extends (x : List Char) (s s' : Cursor) : Prop where
  rest : s'.rest = s.rest ++ x
  position : s'.position = s.position

namespace Extends

variable {x : List Char} {s s' : Cursor}

theorem next (h : Extends x s s') (hne : s.rest ≠ []) : Extends x s.next s'.next where
  rest := by rw [Cursor.rest_next, Cursor.rest_next, h.rest, List.tail_append_of_ne_nil hne]
  position := by
    obtain ⟨c, r, hrest⟩ := List.exists_cons_of_ne_nil hne
    have hrest' := h.rest
    rw [hrest, List.cons_append] at hrest'
    rw [Cursor.position_next hrest, Cursor.position_next hrest', h.position]

theorem skip (h : Extends x s s') {n : Nat} (hn : n ≤ s.rest.length) : Extends x (s.skip n) (s'.skip n) := by
  induction n generalizing s s' with
  | zero => exact h
  | succ n ih =>
    refine ih (h.next (List.ne_nil_of_length_pos (Nat.zero_lt_of_lt hn))) ?_
    rw [Cursor.rest_next, List.length_tail]
    omega

end Extends

/-- The scan reads from a longer text what it reads from the shorter one, unless it is stuck then. -/
def Rereads (x : List Char) (stuck : List Char → Prop) (p : Scan α) : Prop :=
  ∀ ⦃s s' : Cursor⦄ ⦃a : α⦄ ⦃t : Cursor⦄, Extends x s s' → p s = .ok (a, t) →
    (∃ t', p s' = .ok (a, t') ∧ Extends x t t') ∨ stuck t.rest

/-- The scan also misses where it misses in the shorter text, unless it is stuck there. -/
structure Persists (x : List Char) (stuck : List Char → Prop) (p : Scan α) : Prop where
  reads : Rereads x stuck p
  misses : ∀ {s s' : Cursor}, Extends x s s' → Misses p s → Misses p s' ∨ stuck s.rest

/-- No text is one to be stuck at. -/
def never : List Char → Prop := fun _ => False

theorem stays_never (p : Scan α) : Stays never p := nofun

section Longer

variable {x : List Char} {stuck stuck' : List Char → Prop} {p : Scan α}

namespace Rereads

theorem bind {f : α → Scan β} (h : Rereads x stuck p) (hf : ∀ a, Rereads x stuck (f a))
    (hstays : ∀ a, Stays stuck (f a)) : Rereads x stuck (p >>= f) := by
  intro s s' b u hs hb
  obtain ⟨a, t, ha, hb⟩ := bind_ok_iff.1 hb
  obtain ⟨t', ha', ht⟩ | hstuck := h hs ha
  · rw [bind_ok ha']
    exact hf a ht hb
  · exact .inr (hstays a _ _ _ hstuck hb)

/-- What comes to its end where it would be stuck otherwise. -/
theorem closed {f : α → Scan β} (h : Rereads x stuck p) (hf : ∀ a, Rereads x never (f a))
    (hbalks : ∀ a, Balks stuck (f a)) : Rereads x never (p >>= f) := by
  intro s s' b u hs hb
  obtain ⟨a, t, ha, hb⟩ := bind_ok_iff.1 hb
  obtain ⟨t', ha', ht⟩ | hstuck := h hs ha
  · rw [bind_ok ha']
    exact hf a ht hb
  · exact absurd hb (hbalks a _ _ _ hstuck)

theorem commit (h : Rereads x stuck p) : Rereads x stuck (commit p) := fun _ _ _ _ hs ha =>
  (h hs (commit_ok_iff.1 ha)).imp_left fun ⟨t', ha', ht⟩ => ⟨t', commit_ok_iff.2 ha', ht⟩

theorem expecting (h : Rereads x stuck p) (what : Expectation) : Rereads x stuck (expecting what p) :=
  fun _ _ _ _ hs ha => (h hs (expecting_ok_iff.1 ha)).imp_left fun ⟨t', ha', ht⟩ =>
    ⟨t', expecting_ok_iff.2 ha', ht⟩

end Rereads

namespace Persists

theorem mono (h : Persists x stuck p) (hstuck : ∀ r, stuck r → stuck' r) : Persists x stuck' p where
  reads _ _ _ _ hs ha := (h.reads hs ha).imp_right (hstuck _)
  misses hs hm := (h.misses hs hm).imp_right (hstuck _)

theorem of_never (h : Persists x never p) : Persists x stuck p := h.mono nofun

theorem pure (a : α) : Persists x stuck (pure a : Scan α) where
  reads _ _ _ _ hs ha := by
    cases ha
    exact .inl ⟨_, rfl, hs⟩
  misses _ hm := absurd hm (Firm.pure a _)

theorem miss : Persists x stuck (miss : Scan α) where
  reads _ _ _ _ _ ha := nomatch ha
  misses _ _ := .inl ⟨_, rfl, rfl⟩

theorem stop (what : Expectation) : Persists x stuck (stop what : Scan α) where
  reads _ _ _ _ _ ha := nomatch ha
  misses _ hm := absurd hm (Firm.stop what _)

theorem here : Persists x stuck here where
  reads _ _ _ _ hs ha := by
    cases ha
    exact .inl ⟨_, congrArg (fun pos => Except.ok (pos, _)) hs.position, hs⟩
  misses _ hm := by
    obtain ⟨e, he, -⟩ := hm
    cases he

/-- What goes on without missing. -/
theorem bind {f : α → Scan β} (h : Persists x stuck p) (hf : ∀ a, Rereads x stuck (f a))
    (hfirm : ∀ a, Firm (f a)) (hstays : ∀ a, Stays stuck (f a)) : Persists x stuck (p >>= f) where
  reads := h.reads.bind hf hstays
  misses hs hm := by
    obtain hm | ⟨a, t, -, hm⟩ := bind_misses_iff.1 hm
    · exact (h.misses hs hm).imp_left fun hm' => bind_misses_iff.2 (.inl hm')
    · exact absurd hm (hfirm a t)

/-- What is read first is never stuck. -/
theorem after {f : α → Scan β} (h : Persists x never p) (hf : ∀ a, Persists x never (f a)) :
    Persists x never (p >>= f) where
  reads := h.reads.bind (fun a => (hf a).reads) fun _ => stays_never _
  misses hs hm := by
    refine .inl (bind_misses_iff.2 ?_)
    obtain hm | ⟨a, t, ha, hm⟩ := bind_misses_iff.1 hm
    · exact .inl ((h.misses hs hm).resolve_right nofun)
    · obtain ⟨t', ha', ht⟩ := (h.reads hs ha).resolve_right nofun
      exact .inr ⟨a, t', ha', ((hf a).misses ht hm).resolve_right nofun⟩

theorem commit (h : Rereads x stuck p) : Persists x stuck (commit p) where
  reads := h.commit
  misses _ hm := absurd hm (Firm.commit p _)

theorem expecting_misses {what : Expectation} {s : Cursor} : Misses (expecting what p) s ↔ Misses p s := by
  cases h : p s <;> simp [Misses, Scan.expecting, h]

theorem expecting (h : Persists x stuck p) (what : Expectation) : Persists x stuck (expecting what p) where
  reads := h.reads.expecting what
  misses hs hm := by
    rw [expecting_misses] at hm ⊢
    exact h.misses hs hm

theorem either_of_misses {p q : Scan α} {s : Cursor} (h : Misses p s) : either p q s = q s := by
  obtain ⟨e, he, hc⟩ := h
  simp [Scan.either, he, hc]

theorem either_of_ok {p q : Scan α} {s t : Cursor} {a : α} (h : p s = .ok (a, t)) :
    either p q s = .ok (a, t) := by
  simp [Scan.either, h]

theorem either_ok {p q : Scan α} {s t : Cursor} {a : α} (h : either p q s = .ok (a, t)) :
    p s = .ok (a, t) ∨ Misses p s ∧ q s = .ok (a, t) := by
  unfold Scan.either at h
  split at h
  · next heq => cases h; exact .inl heq
  · next e heq =>
    split at h
    · cases h
    · next hc => exact .inr ⟨⟨e, heq, by simpa using hc⟩, h⟩

theorem either_misses {p q : Scan α} {s : Cursor} (h : Misses (either p q) s) : Misses p s ∧ Misses q s := by
  obtain ⟨e, he, hc⟩ := h
  unfold Scan.either at he
  split at he
  · cases he
  · next e' heq =>
    split at he
    · next hcommitted => cases he; rw [hc] at hcommitted; cases hcommitted
    · next hcommitted => exact ⟨⟨e', heq, by simpa using hcommitted⟩, e, he, hc⟩

/-- Alternatives, the second of which reads nothing where the first one is stuck. -/
theorem either {q : Scan α} (h : Persists x stuck p) (hq : Persists x stuck q) (hbalks : Balks stuck q) :
    Persists x stuck (either p q) where
  reads _ _ _ _ hs ha := by
    obtain ha | ⟨hm, ha⟩ := either_ok ha
    · exact (h.reads hs ha).imp_left fun ⟨t', ha', ht⟩ => ⟨t', either_of_ok ha', ht⟩
    · obtain hm' | hstuck := h.misses hs hm
      · rw [either_of_misses hm']
        exact hq.reads hs ha
      · exact absurd ha (hbalks _ _ _ hstuck)
  misses hs hm := by
    obtain ⟨hm, hn⟩ := either_misses hm
    obtain hm' | hstuck := h.misses hs hm
    · refine (hq.misses hs hn).imp_left fun hn' => ?_
      unfold Misses
      rw [either_of_misses hm']
      exact hn'
    · exact .inr hstuck

theorem option_ok {p : Scan α} {s t : Cursor} {o : Option α} (h : option p s = .ok (o, t)) :
    (∃ a, o = some a ∧ p s = .ok (a, t)) ∨ o = none ∧ t = s ∧ Misses p s := by
  unfold Scan.option at h
  split at h
  · next a _ heq => cases h; exact .inl ⟨a, rfl, heq⟩
  · next e heq =>
    split at h
    · cases h
    · next hc => cases h; exact .inr ⟨rfl, rfl, e, heq, by simpa using hc⟩

theorem option_of_ok {p : Scan α} {s t : Cursor} {a : α} (h : p s = .ok (a, t)) :
    option p s = .ok (some a, t) := by
  simp [Scan.option, h]

theorem option_of_misses {p : Scan α} {s : Cursor} (h : Misses p s) : option p s = .ok (none, s) := by
  obtain ⟨e, he, hc⟩ := h
  simp [Scan.option, he, hc]

theorem option (h : Persists x stuck p) : Persists x stuck (option p) where
  reads _ _ _ _ hs ho := by
    obtain ⟨a, rfl, ha⟩ | ⟨rfl, rfl, hm⟩ := option_ok ho
    · exact (h.reads hs ha).imp_left fun ⟨t', ha', ht⟩ => ⟨t', option_of_ok ha', ht⟩
    · exact (h.misses hs hm).imp_left fun hm' => ⟨_, option_of_misses hm', hs⟩
  misses _ hm := absurd hm (Firm.option p _)

/-- A scan that always reads something goes on while it can. -/
theorem repeatUpTo (h : Persists x stuck p) (hreads : Reads 1 p) (hstays : Stays stuck p) {n n' : Nat}
    {found as : List α} {s s' t : Cursor} (hn : s.rest.length < n) (hn' : s.rest.length < n')
    (hs : Extends x s s') (ha : Scan.repeatUpTo p n found s = .ok (as, t)) :
    (∃ t', Scan.repeatUpTo p n' found s' = .ok (as, t') ∧ Extends x t t') ∨ stuck t.rest := by
  induction n generalizing n' found s s' with
  | zero => omega
  | succ n ih =>
    obtain _ | n' := n'
    · omega
    rw [Scan.repeatUpTo] at ha ⊢
    split at ha
    · next a u heq =>
      have hread := hreads _ _ _ heq
      obtain ⟨u', ha', hu⟩ | hstuck := h.reads hs heq
      · rw [ha']
        exact ih (by omega) (by omega) hu ha
      · exact .inr (hstays.repeatUpTo _ _ _ _ _ hstuck ha)
    · next e heq =>
      split at ha
      · cases ha
      · next hc =>
        cases ha
        obtain ⟨e', he', hc'⟩ | hstuck := h.misses hs ⟨e, heq, by simpa using hc⟩
        · rw [he']
          exact .inl ⟨s', by simp [hc'], hs⟩
        · exact .inr hstuck

theorem many (h : Persists x stuck p) (hreads : Reads 1 p) (hstays : Stays stuck p) :
    Persists x stuck (many p) where
  reads _ _ _ _ hs ha := by
    refine h.repeatUpTo hreads hstays ?_ ?_ hs ha
    · rw [Cursor.ahead_eq]
      omega
    · rw [Cursor.ahead_eq, hs.rest, List.length_append]
      omega
  misses _ hm := absurd hm (Firm.many p _)

theorem foldlM {f : β → α → Scan β} (hf : ∀ b a, Persists x stuck (f b a)) (hfirm : ∀ b a, Firm (f b a))
    (hstays : ∀ b a, Stays stuck (f b a)) (as : List α) (b : β) : Persists x stuck (as.foldlM f b) := by
  induction as generalizing b with
  | nil => exact pure b
  | cons a as ih =>
    exact (hf b a).bind (fun b => (ih b).reads) (fun _ => .foldlM hfirm _ _) fun _ => .foldlM hstays _ _

end Persists

end Longer

end Scan

end Provenance.Query
