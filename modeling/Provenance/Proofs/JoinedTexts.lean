import Provenance.Proofs.DisplacedTexts
import Provenance.Proofs.LongerTexts
import Provenance.Proofs.PrintedTokens

/-!
# Joined texts

A text that can be read, and another one behind a line feed, are read as the two are read on their own: the
statements of the one and then those of the other, or the error of the other. Only the positions in the second
text are further down, by the lines of the first one.
-/

namespace Provenance.Query

open Scan

/-! ## Statement by statement -/

/-- There is always room for one more statement. -/
theorem statementsUpTo_room {m n : Nat} {s : Cursor} (hm : s.rest.length < m) (hn : s.rest.length < n) :
    statementsUpTo m s = statementsUpTo n s := by
  induction m generalizing n s with
  | zero => omega
  | succ m ih =>
    obtain _ | n := n
    · omega
    rw [statementsUpTo_eq, statementsUpTo_eq]
    dsimp only
    split
    · rfl
    · refine bind_congr_ok fun first t hfirst => bind_congr_ok fun _ u hend => ?_
      have hfirst := statement_reads.commit _ _ _ hfirst
      have hend := endOfStatement_reads.expecting.commit _ _ _ hend
      have hskip := Reads.skip (k := fillerLength (fun c => Text.isBlank c || c == ';') false s.rest) (s := s)
      have hlater : statementsUpTo m u = statementsUpTo n u := ih (by omega) (by omega)
      simp only [Bind.bind, StateT.bind, hlater]

theorem statementsUpTo_nil (n : Nat) {s : Cursor} (hs : s.rest = []) :
    ∃ t, statementsUpTo n s = .ok ([], t) := by
  cases n with
  | zero => exact ⟨s, rfl⟩
  | succ n =>
    refine ⟨_, (statementsUpTo_eq n s).trans (if_pos ?_)⟩
    rw [Cursor.rest_skip, hs, List.drop_nil]
    rfl

variable {r : List Char}

/-- Cursors that go the same way in the shorter and in the longer text. -/
theorem Scan.Extends.of_precedes {x : List Char} {s s' t t' : Cursor} (hs : Extends x s s') (ht : s.Precedes t)
    (ht' : s'.Precedes t') (hrest : t'.rest = t.rest ++ x) : Extends x t t' := by
  have hlength : s'.rest.length - t'.rest.length = s.rest.length - t.rest.length := by
    rw [hs.rest, hrest, List.length_append, List.length_append]
    omega
  rw [ht.eq_skip, ht'.eq_skip, hlength]
  exact hs.skip (Nat.sub_le _ _)

/-- Wherever one stands in the first text, the second one begins in the same place. -/
theorem Scan.Extends.beyond {s s' t t' : Cursor} (hs : Extends ('\n' :: r) s s') (ht : Extends ('\n' :: r) t t')
    (h : s'.Precedes t') : t'.skip (t.rest.length + 1) = s'.skip (s.rest.length + 1) := by
  have hle : t'.rest.length ≤ s'.rest.length := by
    rw [h.eq_skip]
    exact Reads.skip
  have hlength : s'.rest.length - t'.rest.length + (t.rest.length + 1) = s.rest.length + 1 := by
    rw [hs.rest, ht.rest, List.length_append, List.length_append, List.length_cons] at hle ⊢
    omega
  rw [← hlength, skip_add (s'.rest.length - t'.rest.length), ← h.eq_skip]

theorem bind_pure_eq_map {α β : Type} (p : Scan α) (f : α → β) (s : Cursor) :
    (p >>= fun a => pure (f a)) s = (p s).map (Prod.map f id) := by
  simp only [Bind.bind, StateT.bind, Except.bind]
  cases p s <;> rfl

/-- A statement and its end, and what is read behind them. -/
theorem statementsUpTo_cons {n : Nat} {s u v : Cursor} {first : Statement}
    (hne : (s.skip (fillerLength (fun c => Text.isBlank c || c == ';') false s.rest)).rest ≠ [])
    (hfirst : statement (s.skip (fillerLength (fun c => Text.isBlank c || c == ';') false s.rest)) = .ok (first, u))
    (hend : Query.endOfStatement u = .ok ((), v)) :
    statementsUpTo (n + 1) s = (statementsUpTo n v).map (Prod.map (first :: ·) id) := by
  rw [statementsUpTo_eq]
  dsimp only
  rw [if_neg (mt List.isEmpty_iff.1 hne), bind_ok (commit_ok_iff.2 hfirst),
    bind_ok (commit_ok_iff.2 (expecting_ok_iff.2 hend)), bind_pure_eq_map]

theorem Scan.Extends.rest_beyond {s s' : Cursor} (hs : Extends ('\n' :: r) s s') :
    (s'.skip (s.rest.length + 1)).rest = r := by
  rw [Cursor.rest_skip, hs.rest, List.drop_append, List.drop_eq_nil_of_le (Nat.le_succ _)]
  simp

theorem breaks_feed : Breaks ('\n' :: r) := by
  rintro c ⟨⟩
  rfl

/-- Where only separators are left of the first text, they go on behind the line feed. -/
theorem statementsUpTo_beyond {s s' : Cursor} (hs : Extends ('\n' :: r) s s')
    (hfiller : fillerLength (fun c => Text.isBlank c || c == ';') false s.rest = s.rest.length) (n : Nat) :
    statementsUpTo (n + 1) s' = statementsUpTo (n + 1) (s'.skip (s.rest.length + 1)) := by
  have happend := fillerLength_append (breaks_feed (r := r)) (fun c => Text.isBlank c || c == ';') false s.rest
  have hfeed : fillerLength (fun c => Text.isBlank c || c == ';') false ('\n' :: r)
      = 1 + fillerLength (fun c => Text.isBlank c || c == ';') false r := rfl
  rw [hfiller, if_pos rfl, ← hs.rest, hfeed, ← Nat.add_assoc] at happend
  rw [statementsUpTo_eq, statementsUpTo_eq, happend, hs.rest_beyond, ← skip_add]

/-- A statement that ends in the first text ends in the longer one: with the line feed if nothing else is left. -/
theorem Scan.Extends.endOfStatement {s s' t : Cursor} (hs : Extends ('\n' :: r) s s')
    (h : Query.endOfStatement s = .ok ((), t)) : ∃ t', Query.endOfStatement s' = .ok ((), t') ∧
      (t.rest = [] ∧ t'.rest = r ∨ Extends ('\n' :: r) t t') := by
  have hgap : afterGap false s'.rest = afterGap false s.rest ++ '\n' :: r := by
    rw [hs.rest]
    exact afterGap_append breaks_feed nofun
  obtain ⟨hnil, ht⟩ | ⟨c, hc, hr⟩ := endOfStatement_ok h
  · rw [hnil, List.nil_append] at hgap
    obtain ⟨t', h', hrest⟩ := endOfStatement_cons (.inl rfl) hgap
    exact ⟨t', h', .inl ⟨ht, hrest⟩⟩
  · rw [hr] at hgap
    obtain ⟨t', h', hrest⟩ := endOfStatement_cons hc hgap
    exact ⟨t', h', .inr (hs.of_precedes (endOfStatement_precedes h) (endOfStatement_precedes h') hrest)⟩

theorem map_nil_append {t : Except Setback (List Statement × Cursor)} : t.map (Prod.map ([] ++ ·) id) = t := by
  cases t <;> rfl

/-- Behind the statements of the first text come those of the second one, read from where it begins. -/
theorem statementsUpTo_append {n : Nat} {s t : Cursor} {ss : List Statement} (hn : s.rest.length < n)
    (h : statementsUpTo n s = .ok (ss, t)) {n' : Nat} {s' : Cursor} (hs : Extends ('\n' :: r) s s')
    (hn' : s'.rest.length < n') :
    statementsUpTo n' s' = (statementsUpTo n' (s'.skip (s.rest.length + 1))).map (Prod.map (ss ++ ·) id) := by
  induction n generalizing s s' ss n' with
  | zero => omega
  | succ n ih =>
    obtain _ | n' := n'
    · omega
    have hlength : s'.rest.length = s.rest.length + (r.length + 1) := by
      rw [hs.rest, List.length_append, List.length_cons]
    have happend := fillerLength_append (breaks_feed (r := r)) (fun c => Text.isBlank c || c == ';') false s.rest
    have hle := fillerLength_le (fun c => Text.isBlank c || c == ';') false s.rest
    have hfound := statementsUpTo_ok h
    generalize hk : fillerLength (fun c => Text.isBlank c || c == ';') false s.rest = k at hfound happend hle
    rw [← hs.rest] at happend
    obtain ⟨hempty, rfl, rfl⟩ | ⟨hne, first, u, v, others, hfirst, hend, hshorter, hothers, rfl⟩ := hfound
    · rw [Cursor.rest_skip, List.drop_eq_nil_iff] at hempty
      rw [map_nil_append]
      exact statementsUpTo_beyond hs (hk.trans (Nat.le_antisymm hle hempty)) n'
    · -- the first statement is the same, from the same place on
      have hk' : fillerLength (fun c => Text.isBlank c || c == ';') false s'.rest = k := by
        rw [happend, if_neg]
        rintro rfl
        rw [Cursor.rest_skip, List.drop_length] at hne
        exact hne rfl
      have hskip := hs.skip hle
      have hne' : (s'.skip k).rest ≠ [] := by
        rw [hskip.rest, ne_eq, List.append_eq_nil_iff]
        exact fun h => hne h.1
      obtain ⟨u', hfirst', hu⟩ := ((statement_persists breaks_feed).reads hskip hfirst).resolve_right nofun
      obtain ⟨v', hend', hv⟩ := hu.endOfStatement hend
      have hway : s'.Precedes v' :=
        ((Cursor.Precedes.skip s' k).trans (statement_precedes hfirst')).trans (endOfStatement_precedes hend')
      -- the others follow, unless it was the last one
      have hlater : statementsUpTo n' v'
          = (statementsUpTo n' (s'.skip (s.rest.length + 1))).map (Prod.map (others ++ ·) id) := by
        obtain ⟨hnil, hrest⟩ | hv := hv
        · obtain ⟨w', hw'⟩ := statementsUpTo_nil n hnil
          rw [hothers] at hw'
          cases hw'
          rw [map_nil_append, hway.eq_skip, hrest, hlength, ← Nat.add_assoc, Nat.add_right_comm, Nat.add_sub_cancel]
        · have hroom : v'.rest.length < n' := by
            rw [hv.rest, List.length_append, List.length_cons]
            omega
          rw [ih (by omega) hothers hv hroom, hs.beyond hv hway]
      have hroom : (s'.skip (s.rest.length + 1)).rest.length < n' := by
        rw [hs.rest_beyond]
        omega
      rw [statementsUpTo_cons (hk' ▸ hne') (hk' ▸ hfirst') hend', hlater,
        statementsUpTo_room (Nat.lt_succ_of_lt hroom) hroom]
      cases statementsUpTo n' (s'.skip (s.rest.length + 1)) <;> rfl

/-! ## Lines -/

/-- The same column, so many lines further down. -/
def Position.below (lines : Nat) (pos : Position) : Position := ⟨pos.line + lines, pos.column⟩

theorem Position.after_below (lines : Nat) (pos : Position) (c : Char) :
    (pos.below lines).after c = (pos.after c).below lines := by
  unfold after below
  split
  · exact congrArg (Position.mk · 1) (Nat.add_right_comm _ _ _)
  · rfl

theorem Position.line_afterAll (pos : Position) (cs : List Char) :
    (pos.afterAll cs).line = pos.line + cs.count '\n' := by
  induction cs generalizing pos with
  | nil => rfl
  | cons c cs ih =>
    rw [afterAll, List.foldl_cons, ← afterAll, ih, after, List.count_cons]
    split
    · next h => rw [h, beq_self_eq_true, if_pos rfl]; exact Nat.add_right_comm _ _ _
    · next h => rw [if_neg (by simpa using h)]; rfl

/-- The lines of a text; the last one may be empty. -/
def lines (text : String) : Nat := text.toList.count '\n' + 1

theorem Position.after_lines (text : String) :
    (start.afterAll text.toList).after '\n' = start.below (lines text) := by
  rw [after, if_pos rfl, line_afterAll]
  rfl

/-- The same texts, one so many lines below the other. -/
def Displacement.below (lines : Nat) : Displacement where
  places s s' := s'.rest = s.rest ∧ s'.position = s.position.below lines
  move := Position.below lines
  rest h := h.1
  position h := h.2
  next := by
    rintro s s' ⟨hrest, hposition⟩
    refine ⟨by rw [Cursor.rest_next, Cursor.rest_next, hrest], ?_⟩
    cases hcases : s.rest with
    | nil => rw [Cursor.next_of_rest_nil hcases, Cursor.next_of_rest_nil (hrest.trans hcases), hposition]
    | cons c r =>
      rw [Cursor.position_next hcases, Cursor.position_next (hrest.trans hcases), hposition, Position.after_below]

def ParseError.below (lines : Nat) (e : ParseError) : ParseError := { e with position := e.position.below lines }

/-- What a text that stands so many lines further down is read as. -/
theorem statements_below (text : List Char) (lines : Nat) :
    Echo (.below lines) (List.map (Statement.moved (Position.below lines))) (statements (.ofList text))
      (statements (.before text (Position.start.below lines))) :=
  statementsUpTo_echoes (d := .below lines) (text.length + 1) ⟨rfl, rfl⟩

/-- What two texts joined by a line feed are read as, when the first of them can be read. -/
theorem statements_joined {text : String} {ss : List Statement} {t : Cursor}
    (h : statements (.ofList text.toList) = .ok (ss, t)) (later : List Char) :
    statements (.ofList (text.toList ++ '\n' :: later))
      = (statements (.before later (Position.start.below (lines text)))).map (Prod.map (ss ++ ·) id) := by
  have hextends : Extends ('\n' :: later) (.ofList text.toList) (.ofList (text.toList ++ '\n' :: later)) := ⟨rfl, rfl⟩
  have happend := statementsUpTo_append (Nat.lt_succ_self text.toList.length) h hextends (Nat.lt_succ_self _)
  have hbegin : (Cursor.ofList (text.toList ++ '\n' :: later)).skip (text.toList.length + 1)
      = .before later (Position.start.below (lines text)) := by
    have hskip := Cursor.skip_length (text.toList ++ ['\n']) later Position.start
    rw [List.append_assoc, List.length_append, Position.afterAll_append] at hskip
    rw [← Position.after_lines]
    exact hskip
  have hlength : later.length < (text.toList ++ '\n' :: later).length + 1 := by
    rw [List.length_append, List.length_cons]
    omega
  have hroom : statementsUpTo ((text.toList ++ '\n' :: later).length + 1)
      (.before later (Position.start.below (lines text)))
        = statements (.before later (Position.start.below (lines text))) :=
    statementsUpTo_room hlength (Nat.lt_succ_self later.length)
  rw [← hroom, ← hbegin]
  exact happend

/-! ## Joined queries -/

theorem parse_eq_ok_iff {text : String} {ss : List Statement} :
    parse text = .ok ss ↔ ∃ t, statements (.ofList text.toList) = .ok (ss, t) := by
  unfold parse
  cases statements (.ofList text.toList) with
  | error e => simp
  | ok r => obtain ⟨found, t⟩ := r; simp

theorem parse_eq_error_iff {text : String} {e : ParseError} :
    parse text = .error e ↔ ∃ setback, statements (.ofList text.toList) = .error setback ∧
      e = ⟨setback.place.position, setback.expected.getD .statement, setback.place.rest.head?⟩ := by
  unfold parse
  cases statements (.ofList text.toList) with
  | error setback => simp [eq_comm]
  | ok r => simp

section Joined

variable {a b : String} {ss : List Statement}

theorem toList_joined (a b : String) : (a ++ "\n" ++ b).toList = a.toList ++ '\n' :: b.toList := by simp

theorem parse_joined_ok {later : List Statement} (ha : parse a = .ok ss) (hb : parse b = .ok later) :
    parse (a ++ "\n" ++ b) = .ok (ss ++ later.map (Statement.moved (.below (lines a)))) := by
  obtain ⟨t, ha⟩ := parse_eq_ok_iff.1 ha
  obtain ⟨u, hb⟩ := parse_eq_ok_iff.1 hb
  have hecho := statements_below b.toList (lines a)
  rw [hb] at hecho
  rw [parse_eq_ok_iff, toList_joined, statements_joined ha]
  generalize statements (.before b.toList _) = o at hecho
  cases hecho with
  | read => exact ⟨_, rfl⟩

theorem parse_joined_error {e : ParseError} (ha : parse a = .ok ss) (hb : parse b = .error e) :
    parse (a ++ "\n" ++ b) = .error { e with position := e.position.below (lines a) } := by
  obtain ⟨t, ha⟩ := parse_eq_ok_iff.1 ha
  obtain ⟨setback, hread, rfl⟩ := parse_eq_error_iff.1 hb
  have hecho := statements_below b.toList (lines a)
  rw [hread] at hecho
  rw [parse_eq_error_iff, toList_joined, statements_joined ha]
  generalize statements (.before b.toList _) = o at hecho
  cases hecho with
  | setback hplace =>
    obtain ⟨hrest, hposition⟩ := hplace
    exact ⟨_, rfl, by rw [hrest, hposition]⟩

/-- Texts that are joined by a line feed are read as the statements of the one and then those of the
other. -/
theorem parse_joined {q₁ q₂ : String} {ss₁ ss₂ : List Statement} (h₁ : parse q₁ = .ok ss₁)
    (h₂ : parse q₂ = .ok ss₂) :
    ∃ ss, parse (q₁ ++ "\n" ++ q₂) = .ok ss ∧ List.Forall₂ Statement.Alike (ss₁ ++ ss₂) ss := by
  have hfirst : List.Forall₂ Statement.Alike ss₁ ss₁ := List.forall₂_same.2 fun _ _ => rfl
  have hsecond : List.Forall₂ Statement.Alike ss₂ (ss₂.map (Statement.moved (.below (lines q₁)))) :=
    List.forall₂_map_right_iff.2 (List.forall₂_same.2 fun s _ => s.alike_moved _)
  exact ⟨_, parse_joined_ok h₁ h₂, List.rel_append hfirst hsecond⟩

/-- Behind a text that can be read and a line feed, a text is read as on its own: its statements follow, or its
error arises, so many lines further down. -/
theorem parse_below (ha : parse a = .ok ss) (b : String) :
    parse (a ++ "\n" ++ b) = match parse b with
      | .ok later => .ok (ss ++ later.map (Statement.moved (.below (lines a))))
      | .error e => .error { e with position := e.position.below (lines a) } := by
  cases hb : parse b with
  | ok later => exact parse_joined_ok ha hb
  | error e => exact parse_joined_error ha hb

/-- A comment ends with its line, and a line feed in a text counts. -/
theorem parse_below_comment : ∃ ss, parse "$a = import('x\ny') # (" = .ok ss ∧
    parse "$a = import('x\ny') # (\nlist\nstat )" = .error ⟨⟨4, 6⟩, .endOfStatement, some ')'⟩ ∧
    parse "list\nstat )" = .error ⟨⟨2, 6⟩, .endOfStatement, some ')'⟩ := by
  have hread : (parse "$a = import('x\ny') # (").toOption.isSome = true := by decide +kernel
  have herror : parse "list\nstat )" = .error ⟨⟨2, 6⟩, .endOfStatement, some ')'⟩ := rfl
  cases ha : parse "$a = import('x\ny') # (" with
  | error e => rw [ha] at hread; cases hread
  | ok ss =>
    refine ⟨ss, rfl, ?_, herror⟩
    have h := parse_below ha "list\nstat )"
    rw [herror] at h
    exact h

end Joined

end Provenance.Query
