import Provenance.Proofs.Scans

/-!
# Words in longer texts

A word ends before a line feed, so that a line feed and more text behind it change nothing. The gap
before a word does so too, but inside parentheses it passes over line feeds. There it may go on where the
shorter text ends, and a scan that finds only filler and commas there is stuck.
-/

namespace Provenance.Query

open Scan

variable {x : List Char}

/-! ## Characters -/

/-- The text begins with a line feed, if it is not empty. -/
def Breaks (x : List Char) : Prop := ∀ c ∈ x.head?, c = '\n'

theorem takeWhile_append_breaks (hx : Breaks x) {accepts : Char → Bool} (h : accepts '\n' = false)
    (r : List Char) : (r ++ x).takeWhile accepts = r.takeWhile accepts := by
  induction r with
  | nil =>
    cases x with
    | nil => rfl
    | cons c y =>
      rw [hx c rfl, List.nil_append, List.takeWhile_cons, h]
      rfl
  | cons c r ih => rw [List.cons_append, List.takeWhile_cons, List.takeWhile_cons, ih]

theorem isPrefixOf_append_breaks (hx : Breaks x) {cs : List Char} (h : '\n' ∉ cs) (r : List Char) :
    cs.isPrefixOf (r ++ x) = cs.isPrefixOf r := by
  induction cs generalizing r with
  | nil => simp
  | cons c cs ih =>
    rw [List.mem_cons, not_or] at h
    cases r with
    | nil =>
      cases x with
      | nil => rfl
      | cons d y =>
        have hne : (c == '\n') = false := beq_eq_false_iff_ne.2 (Ne.symm h.1)
        rw [hx d rfl, List.nil_append, List.isPrefixOf_cons_cons, hne]
        rfl
    | cons d r => rw [List.cons_append, List.isPrefixOf_cons_cons, List.isPrefixOf_cons_cons, ih h.2]

theorem skip_add (m n : Nat) (s : Cursor) : s.skip (m + n) = (s.skip m).skip n := by
  induction m generalizing s with
  | zero => rw [Nat.zero_add]; rfl
  | succ m ih => rw [Nat.succ_add, Cursor.skip, Cursor.skip, ih]

theorem charWhere_ok_iff {accepts : Char → Bool} {s t : Cursor} {c : Char} :
    charWhere accepts s = .ok (c, t) ↔ s.rest.head? = some c ∧ accepts c = true ∧ t = s.next := by
  unfold charWhere
  cases s.rest with
  | nil => simp [Scan.miss]
  | cons d r =>
    cases hd : accepts d with
    | false =>
      simp only [hd, Bool.false_eq_true, if_false, Scan.miss, reduceCtorEq, List.head?_cons, Option.some.injEq,
        false_iff, not_and]
      rintro rfl h
      rw [hd] at h
      cases h
    | true =>
      simp only [hd, if_true, Except.ok.injEq, Prod.mk.injEq, List.head?_cons, Option.some.injEq]
      constructor
      · rintro ⟨rfl, rfl⟩
        exact ⟨rfl, hd, rfl⟩
      · rintro ⟨rfl, -, rfl⟩
        exact ⟨rfl, rfl⟩

theorem charWhere_misses_iff {accepts : Char → Bool} {s : Cursor} :
    Misses (charWhere accepts) s ↔ ∀ c ∈ s.rest.head?, accepts c = false := by
  unfold Misses charWhere
  cases s.rest with
  | nil => simp [Scan.miss]
  | cons d r => cases hd : accepts d <;> simp [hd, Scan.miss]

theorem charWhere_persists (hx : Breaks x) {accepts : Char → Bool} (h : accepts '\n' = false) :
    Persists x never (charWhere accepts) where
  reads s s' c t hs ha := by
    obtain ⟨hhead, haccepts, rfl⟩ := charWhere_ok_iff.1 ha
    refine .inl ⟨s'.next, charWhere_ok_iff.2 ⟨?_, haccepts, rfl⟩, hs.next ?_⟩
    · rw [hs.rest, List.head?_append, hhead]
      rfl
    · intro hnil
      rw [hnil] at hhead
      cases hhead
  misses {s s'} hs hm := by
    refine .inl (charWhere_misses_iff.2 fun c hc => ?_)
    rw [charWhere_misses_iff] at hm
    rw [hs.rest, List.head?_append, Option.mem_def, Option.or_eq_some_iff] at hc
    obtain hc | ⟨-, hc⟩ := hc
    · exact hm c hc
    · rw [hx c hc, h]

theorem char_eq (c : Char) : char c = charWhere (· == c) >>= fun _ => pure () := by
  funext s
  simp only [char, charWhere, Bind.bind, StateT.bind, Except.bind]
  cases s.rest with
  | nil => rfl
  | cons d r =>
    by_cases hd : d = c
    · simp only [hd, beq_self_eq_true, if_true]
      rfl
    · simp [hd, Scan.miss]

theorem char_rest {c : Char} {s t : Cursor} (h : char c s = .ok ((), t)) : s.rest = c :: t.rest := by
  unfold char at h
  split at h
  · cases h
  · next d r heq =>
    split at h
    · next hd =>
      cases h
      rw [Cursor.rest_next, heq, hd]
      rfl
    · cases h

theorem char_persists (hx : Breaks x) {c : Char} (hc : c ≠ '\n') : Persists x never (char c) := by
  rw [char_eq]
  exact (charWhere_persists hx (by simpa using hc.symm)).after fun _ => .pure ()

theorem chars_persists (hx : Breaks x) {cs : List Char} (h : '\n' ∉ cs) :
    Persists x never (chars cs) where
  reads s s' u t hs ha := by
    unfold chars at ha ⊢
    split at ha
    · next hprefix =>
      cases ha
      rw [hs.rest, isPrefixOf_append_breaks hx h, if_pos hprefix]
      exact .inl ⟨_, rfl, hs.skip (List.isPrefixOf_iff_prefix.1 hprefix).length_le⟩
    · cases ha
  misses {s s'} hs hm := by
    obtain ⟨e, he, -⟩ := hm
    unfold chars at he
    split at he
    · cases he
    · next hprefix =>
      refine .inl ⟨⟨false, s', none⟩, ?_, rfl⟩
      unfold chars
      rw [hs.rest, isPrefixOf_append_breaks hx h, if_neg hprefix]
      rfl

theorem run_persists (hx : Breaks x) {accepts : Char → Bool} (h : accepts '\n' = false) :
    Persists x never (run accepts) where
  reads s s' cs t hs ha := by
    cases ha
    refine .inl ⟨s'.skip (s.rest.takeWhile accepts).length, ?_, hs.skip (List.takeWhile_prefix accepts).length_le⟩
    rw [run, hs.rest, takeWhile_append_breaks hx h]
  misses _ hm := by
    obtain ⟨e, he, -⟩ := hm
    cases he

/-! ## Words -/

theorem identifier_persists (hx : Breaks x) : Persists x never identifier :=
  (charWhere_persists hx (by decide)).after fun _ => (run_persists hx (by decide)).after fun _ => .pure _

theorem variableName_persists (hx : Breaks x) : Persists x never variableName where
  reads s s' v t hs ha := by
    unfold variableName at ha ⊢
    cases hrest : s.rest with
    | nil => rw [hrest] at ha; cases ha
    | cons c r =>
      rw [hrest] at ha
      rw [hs.rest, hrest, List.cons_append]
      dsimp only at ha ⊢
      rw [takeWhile_append_breaks hx (by decide)]
      split at ha
      · next hsigil =>
        rw [if_pos hsigil]
        split at ha
        · cases ha
        · next hword =>
          rw [if_neg hword]
          cases ha
          refine .inl ⟨_, rfl, hs.skip ?_⟩
          rw [hrest]
          exact Nat.succ_le_succ (List.takeWhile_prefix isNameChar).length_le
      · cases ha
  misses {s s'} hs hm := by
    obtain ⟨e, he, hc⟩ := hm
    refine .inl ⟨⟨false, s', none⟩, ?_, rfl⟩
    unfold variableName at he ⊢
    cases hrest : s.rest with
    | nil =>
      rw [hs.rest, hrest, List.nil_append]
      cases x with
      | nil => rfl
      | cons c y => rw [hx c rfl]; rfl
    | cons c r =>
      rw [hrest] at he
      rw [hs.rest, hrest, List.cons_append]
      dsimp only at he ⊢
      rw [takeWhile_append_breaks hx (by decide)]
      split at he
      · next hsigil =>
        rw [if_pos hsigil]
        split at he
        · next hword => rw [if_pos hword]; rfl
        · cases he
      · next hsigil => rw [if_neg hsigil]; rfl

theorem integerLiteral_persists (hx : Breaks x) : Persists x never integerLiteral where
  reads s s' n t hs ha := by
    unfold integerLiteral at ha ⊢
    rw [hs.rest, takeWhile_append_breaks hx (by decide)]
    dsimp only at ha ⊢
    split at ha
    · cases ha
    · next hdigits =>
      rw [if_neg hdigits]
      cases hword : Text.word? (s.rest.takeWhile Text.isDigit) with
      | none => rw [hword] at ha; cases ha
      | some m =>
        rw [hword] at ha
        cases ha
        exact .inl ⟨_, rfl, hs.skip (List.takeWhile_prefix Text.isDigit).length_le⟩
  misses {s s'} hs hm := by
    obtain ⟨e, he, hc⟩ := hm
    refine .inl ⟨⟨false, s', none⟩, ?_, rfl⟩
    unfold integerLiteral at he ⊢
    rw [hs.rest, takeWhile_append_breaks hx (by decide)]
    dsimp only at he ⊢
    split at he
    · next hdigits => rw [if_pos hdigits]; rfl
    · cases hword : Text.word? (s.rest.takeWhile Text.isDigit) with
      | none => rw [hword] at he; cases he; cases hc
      | some m => rw [hword] at he; cases he

theorem Body.cons_eq_text {length n : Nat} {c : Char} {value : List Char} {body : Body}
    (h : body.cons length c = .text n value) : ∃ m v, body = .text m v ∧ n = m + length ∧ value = c :: v := by
  cases body with
  | text m v => cases h; exact ⟨m, v, rfl, rfl, rfl⟩
  | dangling => cases h
  | badEscape m => cases h

theorem bodyOf_cons {quote c : Char} (hc : c ≠ '\\') (r : List Char) :
    bodyOf quote (c :: r) = if c = quote then .text 0 [] else (bodyOf quote r).cons 1 c := by
  rw [bodyOf]
  · rintro rfl
    exact absurd rfl hc
  · rintro d r' rfl
    exact absurd rfl hc

/-- A body that ends before the end of a text ends there in a longer text too. -/
theorem bodyOf_append {quote : Char} {r : List Char} {n : Nat} {value : List Char}
    (h : bodyOf quote r = .text n value) (hn : n < r.length) (x : List Char) :
    bodyOf quote (r ++ x) = .text n value := by
  fun_induction bodyOf quote r generalizing n value with
  | case1 => cases hn
  | case2 => cases h
  | case3 c r d hd ih =>
    obtain ⟨m, v, hbody, rfl, rfl⟩ := Body.cons_eq_text h
    rw [List.cons_append, List.cons_append, bodyOf, hd]
    dsimp only
    rw [ih hbody (by simpa using hn)]
    rfl
  | case4 c r hd => cases h
  | case5 r hnone hsome =>
    have hslash : quote ≠ '\\' := by
      rintro rfl
      cases r with
      | nil => exact hnone rfl rfl
      | cons d r => exact hsome d r rfl rfl
    rw [List.cons_append, bodyOf_cons hslash, if_pos rfl, h]
  | case6 c r hnone hsome hquote ih =>
    have hslash : c ≠ '\\' := by
      rintro rfl
      cases r with
      | nil => exact hnone rfl rfl
      | cons d r => exact hsome d r rfl rfl
    obtain ⟨m, v, hbody, rfl, rfl⟩ := Body.cons_eq_text h
    rw [List.cons_append, bodyOf_cons hslash, if_neg hquote, ih hbody (by simpa using hn)]
    rfl

theorem bodyOf_quote {quote : Char} (hslash : quote ≠ '\\') (r : List Char) :
    bodyOf quote (quote :: r) = .text 0 [] := by
  rw [bodyOf_cons hslash, if_pos rfl]

theorem quotedLiteral_persists (hx : Breaks x) {quote : Char} (hquote : quote ≠ '\n') (hslash : quote ≠ '\\') :
    Persists x never (quotedLiteral quote) where
  reads s s' v t hs ha := by
    obtain ⟨⟨⟩, t₁, hopen, ha⟩ := bind_ok_iff.1 ha
    obtain ⟨value, t₂, hbody, ha⟩ := bind_ok_iff.1 ha
    obtain ⟨⟨⟩, t₃, hclose, ha⟩ := bind_ok_iff.1 ha
    cases ha
    obtain ⟨t₁', hopen', ht₁⟩ := ((char_persists hx hquote).reads hs hopen).resolve_right nofun
    have hcloses := Persists.commit ((char_persists hx hquote).expecting .closingQuote).reads
    have hr := char_rest (expecting_ok_iff.1 (commit_ok_iff.1 hclose))
    split at hbody
    · next n w heq =>
      cases hbody
      rw [Cursor.rest_skip] at hr
      have hlength : n < t₁.rest.length := by
        refine Nat.lt_of_not_le fun hle => ?_
        rw [List.drop_eq_nil_of_le hle] at hr
        cases hr
      obtain ⟨t₃', hclose', ht₃⟩ := (hcloses.reads (ht₁.skip (Nat.le_of_lt hlength)) hclose).resolve_right nofun
      refine .inl ⟨t₃', bind_ok_iff.2 ⟨(), t₁', hopen', bind_ok_iff.2 ⟨value, t₁'.skip n, ?_,
        bind_ok_iff.2 ⟨(), t₃', hclose', rfl⟩⟩⟩, ht₃⟩
      rw [ht₁.rest, bodyOf_append heq hlength]
    · next heq =>
      cases hbody
      rw [hr, bodyOf_quote hslash] at heq
      cases heq
    · cases hbody
  misses {s s'} hs hm := by
    obtain hm | ⟨⟨⟩, t, -, hm⟩ := bind_misses_iff.1 hm
    · exact ((char_persists hx hquote).misses hs hm).imp_left fun hm' => bind_misses_iff.2 (.inl hm')
    · refine absurd hm (Firm.bind ?_ (fun _ => (Firm.commit _).bind fun _ => Firm.pure _) t)
      rintro u ⟨e, he, hc⟩
      dsimp only at he
      split at he
      · cases he
      · cases he
      · cases he
        cases hc

/-! ## Between the words -/

theorem fillerLength_le (passes : Char → Bool) (comment : Bool) (r : List Char) :
    fillerLength passes comment r ≤ r.length := by
  fun_induction fillerLength passes comment r <;> simp <;> omega

/-- What follows a text is filler or not whether or not the text ends in a comment. -/
theorem fillerLength_breaks (hx : Breaks x) (passes : Char → Bool) (comment : Bool) :
    fillerLength passes comment x = fillerLength passes false x := by
  cases x with
  | nil => cases comment <;> rfl
  | cons c y =>
    obtain rfl : c = '\n' := hx c rfl
    cases comment with
    | false => rfl
    | true => simp [fillerLength]

/-- Filler at the front of a longer text. -/
theorem fillerLength_append (hx : Breaks x) (passes : Char → Bool) (comment : Bool) (r : List Char) :
    fillerLength passes comment (r ++ x) = if fillerLength passes comment r = r.length
      then r.length + fillerLength passes false x else fillerLength passes comment r := by
  induction r generalizing comment with
  | nil => simp [fillerLength, fillerLength_breaks hx passes comment]
  | cons c r ih =>
    have hstep : ∀ comment', (1 + fillerLength passes comment' (r ++ x)) =
        if 1 + fillerLength passes comment' r = (c :: r).length
          then (c :: r).length + fillerLength passes false x else 1 + fillerLength passes comment' r := by
      intro comment'
      rw [ih, List.length_cons]
      split <;> split <;> omega
    rw [List.cons_append]
    cases comment with
    | true =>
      rw [fillerLength, fillerLength]
      split
      · split
        · exact hstep false
        · simp
      · exact hstep true
    | false =>
      rw [fillerLength, fillerLength]
      split
      · exact hstep true
      · split
        · exact hstep false
        · simp

/-- Behind filler there is no more filler. -/
theorem fillerLength_drop (passes : Char → Bool) (comment : Bool) (r : List Char) :
    fillerLength passes false (r.drop (fillerLength passes comment r)) = 0 := by
  induction r generalizing comment with
  | nil => simp [fillerLength]
  | cons c r ih =>
    cases comment with
    | true =>
      rw [fillerLength]
      split
      · next hc =>
        subst hc
        split
        · rw [Nat.add_comm, List.drop_succ_cons, ih]
        · next hpasses => simp [fillerLength, hpasses]
      · rw [Nat.add_comm, List.drop_succ_cons, ih]
    | false =>
      rw [fillerLength]
      split
      · rw [Nat.add_comm, List.drop_succ_cons, ih]
      · next hc =>
        split
        · rw [Nat.add_comm, List.drop_succ_cons, ih]
        · next hpasses => simp [fillerLength, hc, hpasses]

/-- What is left behind a gap. -/
def afterGap (inside : Bool) (r : List Char) : List Char :=
  r.drop (fillerLength (fun c => Text.isBlank c && (inside || c != '\n')) false r)

theorem gap_ok (inside : Bool) (s : Cursor) :
    ∃ u, gap inside s = .ok ((), u) ∧ u.rest = afterGap inside s.rest :=
  ⟨_, rfl, Cursor.rest_skip _ _⟩

theorem afterGap_afterGap (inside : Bool) (r : List Char) :
    afterGap inside (afterGap inside r) = afterGap inside r := by
  rw [afterGap, afterGap, fillerLength_drop, List.drop_zero]

/-- A gap ends at the line feed, unless it stands inside parentheses and reaches the end of the text
before. -/
theorem gapLength_append (hx : Breaks x) {inside : Bool} {r : List Char}
    (h : inside = true → afterGap inside r ≠ []) :
    fillerLength (fun c => Text.isBlank c && (inside || c != '\n')) false (r ++ x)
      = fillerLength (fun c => Text.isBlank c && (inside || c != '\n')) false r := by
  rw [fillerLength_append hx]
  split
  · next hall =>
    cases inside with
    | true => exact absurd (List.drop_eq_nil_of_le (Nat.le_of_eq hall.symm)) (h rfl)
    | false =>
      rw [hall]
      cases x with
      | nil => rfl
      | cons c y =>
        obtain rfl : c = '\n' := hx c rfl
        rfl
  · rfl

theorem afterGap_append (hx : Breaks x) {inside : Bool} {r : List Char}
    (h : inside = true → afterGap inside r ≠ []) : afterGap inside (r ++ x) = afterGap inside r ++ x := by
  rw [afterGap, gapLength_append hx h, List.drop_append_of_le_length (fillerLength_le _ _ _), afterGap]

/-- Inside parentheses there is only filler left, or there are commas between the filler. -/
inductive Stuck : List Char → Prop
  | ended {r : List Char} (h : afterGap true r = []) : Stuck r
  | comma {r later : List Char} (h : afterGap true r = ',' :: later) (hlater : Stuck later) : Stuck r

theorem stuck_afterGap_iff {r : List Char} : Stuck (afterGap true r) ↔ Stuck r := by
  constructor
  · rintro (h | ⟨h, hlater⟩)
    · exact .ended (by rwa [afterGap_afterGap] at h)
    · exact .comma (by rwa [afterGap_afterGap] at h) hlater
  · rintro (h | ⟨h, hlater⟩)
    · exact .ended (by rwa [afterGap_afterGap])
    · exact .comma (by rwa [afterGap_afterGap]) hlater

/-- Only a scan inside parentheses is ever stuck. -/
def StuckIn (inside : Bool) (r : List Char) : Prop := inside = true ∧ Stuck r

theorem stuckIn_afterGap_iff {inside : Bool} {r : List Char} :
    StuckIn inside (afterGap inside r) ↔ StuckIn inside r := by
  cases inside with
  | true => exact and_congr_right fun _ => stuck_afterGap_iff
  | false => exact iff_of_false nofun nofun

theorem gap_extends (hx : Breaks x) {inside : Bool} {s s' : Cursor} (hs : Extends x s s')
    (h : inside = true → afterGap inside s.rest ≠ []) : ∃ u u', gap inside s = .ok ((), u) ∧
      gap inside s' = .ok ((), u') ∧ u.rest = afterGap inside s.rest ∧ Extends x u u' := by
  refine ⟨_, _, rfl, rfl, Cursor.rest_skip _ _, ?_⟩
  rw [hs.rest, gapLength_append hx h]
  exact hs.skip (fillerLength_le _ _ _)

section Gap

variable {α : Type} {stuck : List Char → Prop} {inside : Bool} {f : Scan α}

/-- A gap, and then something that reads a character at least. -/
theorem gap_rereads (hx : Breaks x) (hreads : inside = true → Reads 1 f) (h : Rereads x stuck f) :
    Rereads x stuck (gap inside >>= fun _ => f) := by
  intro s s' a t hs ha
  have hne : inside = true → afterGap inside s.rest ≠ [] := by
    intro hinside hnil
    obtain ⟨u, hu, hrest⟩ := gap_ok inside s
    rw [bind_ok hu] at ha
    have := hreads hinside u a t ha
    rw [hrest, hnil, List.length_nil] at this
    omega
  obtain ⟨u, u', hu, hu', -, hext⟩ := gap_extends hx hs hne
  rw [bind_ok hu] at ha
  rw [bind_ok hu']
  exact h hext ha

theorem gap_persists (hx : Breaks x) (hreads : inside = true → Reads 1 f) (h : Persists x (StuckIn inside) f) :
    Persists x (StuckIn inside) (gap inside >>= fun _ => f) where
  reads := gap_rereads hx hreads h.reads
  misses {s s'} hs hm := by
    by_cases hend : inside = true ∧ afterGap inside s.rest = []
    · obtain ⟨rfl, hnil⟩ := hend
      exact .inr ⟨rfl, .ended hnil⟩
    · obtain ⟨u, u', hu, hu', hrest, hext⟩ := gap_extends hx hs fun hinside hnil => hend ⟨hinside, hnil⟩
      obtain ⟨e, he, hc⟩ := hm
      rw [bind_ok hu] at he
      obtain ⟨e', he', hc'⟩ | hstuck := h.misses hext ⟨e, he, hc⟩
      · exact .inl ⟨e', by rw [bind_ok hu', he'], hc'⟩
      · rw [hrest, stuckIn_afterGap_iff] at hstuck
        exact .inr hstuck

theorem gap_balks (h : Balks (StuckIn inside) f) : Balks (StuckIn inside) (gap inside >>= fun _ => f) := by
  intro s a t hs ha
  obtain ⟨u, hu, hrest⟩ := gap_ok inside s
  rw [bind_ok hu] at ha
  exact h u a t (by rw [hrest, stuckIn_afterGap_iff]; exact hs) ha

theorem gap_reads (n : Nat) (h : Reads n f) : Reads n (gap inside >>= fun _ => f) :=
  Reads.after (fun _ _ _ hu => by cases hu; exact Reads.skip) fun _ => h

end Gap

/-! ## Where no scan begins -/

/-- The character is neither filler nor a comma. -/
def IsSolid (c : Char) : Prop := 0x20 < c.toNat ∧ c.toNat < 0x85 ∧ c ≠ '#' ∧ c ≠ ','

instance (c : Char) : Decidable (IsSolid c) := inferInstanceAs (Decidable (_ ∧ _ ∧ _ ∧ _))

theorem not_isBlank_of_isSolid {c : Char} (h : IsSolid c) : Text.isBlank c = false := by
  obtain ⟨hlow, hhigh, -⟩ := h
  rw [← Bool.not_eq_true, Text.isBlank, Text.CodePoints.has_iff]
  simp only [Text.blanks, List.mem_cons, List.not_mem_nil, or_false, not_exists, not_and]
  rintro r (rfl | rfl | rfl | rfl | rfl | rfl | rfl | rfl | rfl | rfl) <;> simp <;> omega

theorem afterGap_of_isSolid {c : Char} (h : IsSolid c) (inside : Bool) (r : List Char) :
    afterGap inside (c :: r) = c :: r := by
  simp [afterGap, fillerLength, h.2.2.1, not_isBlank_of_isSolid h]

theorem Stuck.not_isSolid {c : Char} {r : List Char} (h : Stuck (c :: r)) : ¬ IsSolid c := by
  intro hc
  obtain h | ⟨h, -⟩ := h
  · rw [afterGap_of_isSolid hc] at h
    cases h
  · rw [afterGap_of_isSolid hc] at h
    cases h
    exact hc.2.2.2 rfl

/-- A scan that reads something at least, and nothing where it is stuck, persists in longer texts. -/
structure Steady {α : Type} (x : List Char) (inside : Bool) (p : Scan α) : Prop
    extends Persists x (StuckIn inside) p where
  balks : Balks (StuckIn inside) p
  reads_one : Reads 1 p

namespace Steady

variable {α β : Type} {inside : Bool} {p q : Scan α}

theorem bind {f : α → Scan β} (h : Steady x inside p) (hf : ∀ a, Rereads x (StuckIn inside) (f a))
    (hfirm : ∀ a, Firm (f a)) (hstays : ∀ a, Stays (StuckIn inside) (f a)) (hreads : ∀ a, Reads 0 (f a)) :
    Steady x inside (p >>= f) :=
  ⟨h.toPersists.bind hf hfirm hstays, h.balks.bind f, h.reads_one.first hreads⟩

/-- Only the value is changed. -/
theorem map (h : Steady x inside p) (f : α → β) : Steady x inside (p >>= fun a => pure (f a)) :=
  h.bind (fun _ => (Persists.pure _).reads) (fun _ => .pure _) (fun _ => .pure _) fun _ => .pure _

theorem gap (hx : Breaks x) (h : Steady x inside p) : Steady x inside (gap inside >>= fun _ => p) :=
  ⟨gap_persists hx (fun _ => h.reads_one) h.toPersists, gap_balks h.balks, gap_reads 1 h.reads_one⟩

theorem here {f : Position → Scan α} (h : ∀ pos, Steady x inside (f pos)) : Steady x inside (here >>= f) where
  reads s s' a t hs ha := by
    have hf : (Scan.here >>= f) s' = f s.position s' := congrArg (f · s') hs.position
    rw [hf]
    exact (h s.position).reads hs ha
  misses {s s'} hs hm := by
    have hf : (Scan.here >>= f) s' = f s.position s' := congrArg (f · s') hs.position
    unfold Misses
    rw [hf]
    exact (h s.position).misses hs hm
  balks s a t hs ha := (h s.position).balks s a t hs ha
  reads_one s a t ha := (h s.position).reads_one s a t ha

theorem either (h : Steady x inside p) (hq : Steady x inside q) : Steady x inside (either p q) :=
  ⟨h.toPersists.either hq.toPersists hq.balks, h.balks.either hq.balks, h.reads_one.either hq.reads_one⟩

theorem expecting (what : Expectation) (h : Steady x inside p) : Steady x inside (expecting what p) :=
  ⟨h.toPersists.expecting what, h.balks.expecting what, h.reads_one.expecting⟩

theorem commit (h : Rereads x (StuckIn inside) p) (hbalks : Balks (StuckIn inside) p) (hreads : Reads 1 p) :
    Steady x inside (commit p) :=
  ⟨.commit h, hbalks.commit, hreads.commit⟩

/-- Repetition and what comes of it. -/
theorem many (h : Steady x inside p) : Persists x (StuckIn inside) (many p) :=
  h.toPersists.many h.reads_one h.balks.stays

/-- Words are read up to the line feed at most, and begin with a character that no scan is stuck at. -/
theorem word (h : Persists x never p) (hsolid : ∀ s a t, p s = .ok (a, t) → ∃ c r, s.rest = c :: r ∧ IsSolid c)
    (hreads : Reads 1 p) : Steady x inside p where
  toPersists := h.of_never
  balks s a t hs ha := by
    obtain ⟨c, r, hrest, hc⟩ := hsolid s a t ha
    rw [hrest] at hs
    exact hs.2.not_isSolid hc
  reads_one := hreads

end Steady

/-! ## Words, again -/

theorem isSolid_of_isNameStart {c : Char} (h : isNameStart c = true) : IsSolid c := by
  have hrange : 0x20 < c.toNat ∧ c.toNat < 0x85 := by
    simp only [isNameStart, isLetter, Char.le_def, UInt32.le_iff_toNat_le, Bool.or_eq_true, Bool.and_eq_true,
      decide_eq_true_eq, beq_iff_eq] at h
    obtain (h | h) | rfl := h
    · exact ⟨Nat.lt_of_lt_of_le (by decide) h.1, Nat.lt_of_le_of_lt h.2 (by decide)⟩
    · exact ⟨Nat.lt_of_lt_of_le (by decide) h.1, Nat.lt_of_le_of_lt h.2 (by decide)⟩
    · decide
  refine ⟨hrange.1, hrange.2, ?_, ?_⟩
  · rintro rfl
    exact absurd h (by decide)
  · rintro rfl
    exact absurd h (by decide)

theorem isSolid_of_isDigit {c : Char} (h : Text.isDigit c = true) : IsSolid c := by
  have hrange : 0x20 < c.toNat ∧ c.toNat < 0x85 := by
    simp only [Text.isDigit, Char.le_def, UInt32.le_iff_toNat_le, Bool.and_eq_true, decide_eq_true_eq] at h
    exact ⟨Nat.lt_of_lt_of_le (by decide) h.1, Nat.lt_of_le_of_lt h.2 (by decide)⟩
  refine ⟨hrange.1, hrange.2, ?_, ?_⟩
  · rintro rfl
    exact absurd h (by decide)
  · rintro rfl
    exact absurd h (by decide)

theorem charWhere_head {accepts : Char → Bool} {s t : Cursor} {c : Char}
    (h : charWhere accepts s = .ok (c, t)) : ∃ r, s.rest = c :: r ∧ accepts c = true := by
  obtain ⟨hhead, haccepts, -⟩ := charWhere_ok_iff.1 h
  cases hrest : s.rest with
  | nil => rw [hrest] at hhead; cases hhead
  | cons d r =>
    rw [hrest] at hhead
    cases hhead
    exact ⟨r, rfl, haccepts⟩

section Words

variable {inside : Bool}

theorem charWhere_steady (hx : Breaks x) {accepts : Char → Bool} (h : ∀ c, accepts c = true → IsSolid c) :
    Steady x inside (charWhere accepts) := by
  refine .word (charWhere_persists hx ?_) (fun s c t hc => ?_) (.charWhere accepts)
  · rw [← Bool.not_eq_true]
    intro haccepts
    exact absurd (h _ haccepts).1 (by decide)
  · obtain ⟨r, hrest, haccepts⟩ := charWhere_head hc
    exact ⟨c, r, hrest, h c haccepts⟩

theorem char_steady (hx : Breaks x) {c : Char} (hc : IsSolid c) : Steady x inside (char c) := by
  rw [char_eq]
  refine (charWhere_steady hx fun d hd => ?_).map fun _ => ()
  rw [beq_iff_eq.1 hd]
  exact hc

theorem identifier_steady (hx : Breaks x) : Steady x inside identifier := by
  refine .word (identifier_persists hx) (fun s word t h => ?_)
    ((Reads.charWhere _).first fun _ => (Reads.run _).first fun _ => .pure _)
  obtain ⟨c, u, hc, -⟩ := bind_ok_iff.1 h
  obtain ⟨r, hrest, haccepts⟩ := charWhere_head hc
  exact ⟨c, r, hrest, isSolid_of_isNameStart haccepts⟩

theorem variableName_reads : Reads 1 variableName := by
  intro s v t h
  unfold variableName at h
  split at h
  · cases h
  · next heq =>
    split at h
    · dsimp only at h
      split at h
      · cases h
      · cases h
        rw [Cursor.rest_skip, heq, List.drop_succ_cons, List.length_drop, List.length_cons]
        omega
    · cases h

theorem variableName_steady (hx : Breaks x) : Steady x inside variableName := by
  refine .word (variableName_persists hx) (fun s v t h => ?_) variableName_reads
  unfold variableName at h
  split at h
  · cases h
  · next c r heq =>
    split at h
    · next hsigil =>
      refine ⟨c, r, heq, ?_⟩
      unfold Kind.ofSigil? at hsigil
      split at hsigil
      · decide
      · decide
      · cases hsigil
    · cases h

theorem integerLiteral_steady (hx : Breaks x) : Steady x inside integerLiteral := by
  have hdigits : ∀ s n t, integerLiteral s = .ok (n, t) →
      s.rest.takeWhile Text.isDigit ≠ [] ∧ t = s.skip (s.rest.takeWhile Text.isDigit).length := by
    intro s n t h
    unfold integerLiteral at h
    dsimp only at h
    split at h
    · cases h
    · next hne =>
      split at h
      · cases h
        exact ⟨fun hnil => hne (by rw [hnil]; rfl), rfl⟩
      · cases h
  refine .word (integerLiteral_persists hx) (fun s n t h => ?_) fun s n t h => ?_
  · obtain ⟨hne, -⟩ := hdigits s n t h
    cases hrest : s.rest with
    | nil => rw [hrest] at hne; exact absurd rfl hne
    | cons c r =>
      refine ⟨c, r, rfl, isSolid_of_isDigit ?_⟩
      by_contra hc
      rw [hrest, List.takeWhile_cons, if_neg hc] at hne
      exact hne rfl
  · obtain ⟨hne, rfl⟩ := hdigits s n t h
    have hlength := List.length_pos_iff.2 hne
    have hle := (List.takeWhile_prefix (l := s.rest) Text.isDigit).length_le
    rw [Cursor.rest_skip, List.length_drop]
    omega

theorem quotedLiteral_reads (quote : Char) : Reads 1 (quotedLiteral quote) := by
  refine (Reads.char quote).first fun _ => Reads.after (fun s value t h => ?_) fun value =>
    Reads.after ((Reads.char quote).mono (Nat.zero_le _)).expecting.commit fun _ => .pure _
  split at h
  · cases h
    exact Reads.skip
  · cases h
    exact Nat.le_refl _
  · cases h

theorem quotedLiteral_steady (hx : Breaks x) {quote : Char} (hquote : IsSolid quote) (hslash : quote ≠ '\\') :
    Steady x inside (quotedLiteral quote) := by
  refine .word (quotedLiteral_persists hx ?_ hslash) (fun s value t h => ?_) (quotedLiteral_reads quote)
  · rintro rfl
    exact absurd hquote.1 (by decide)
  · obtain ⟨⟨⟩, u, hu, -⟩ := bind_ok_iff.1 h
    exact ⟨quote, _, char_rest hu, hquote⟩

theorem textLiteral_steady (hx : Breaks x) : Steady x inside textLiteral :=
  (quotedLiteral_steady hx (by decide) (by decide)).either
    (quotedLiteral_steady hx (by decide) (by decide))

end Words

end Provenance.Query
