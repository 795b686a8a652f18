import Provenance.Proofs.StatementTexts

/-!
# Reading texts piece by piece

A statement text is read from left to right, so what a piece of it is read as does not depend on where it stands. Some
pieces are read in the same way before anything (`Passes`), others before anything that delimits a word (`Reads`).
Pieces are put together by `Passes.append` and `Reads.append`, and so a whole statement is read from its pieces.
-/

namespace Provenance.Store

namespace Decimal

theorem suffix_of_readExponent? {cs rest : List Char} {e : Int} (h : readExponent? cs = some (e, rest)) :
    rest <:+ cs := by
  unfold readExponent? at h
  split at h
  · next c r =>
    split at h
    · dsimp only at h
      split at h <;> split at h
      · cases h
      · cases h
        exact (List.drop_suffix ..).trans ((List.suffix_cons ..).trans (List.suffix_cons ..))
      · cases h
      · cases h
        exact (List.drop_suffix ..).trans ((List.suffix_cons ..).trans (List.suffix_cons ..))
      · cases h
      · cases h
        exact (List.drop_suffix ..).trans (List.suffix_cons ..)
    · cases h
  · cases h

/-- What is left behind a number is shorter. -/
theorem length_of_readUnsigned? {cs rest : List Char} {d : Decimal} (h : readUnsigned? cs = some (d, rest)) :
    rest.length < cs.length := by
  have hdigits := (List.takeWhile_prefix (l := cs) Text.isDigit).length_le
  have hexponent : ∀ {r r' : List Char} {e : Int}, readExponent? r = some (e, r') → r'.length ≤ r.length :=
    fun he => (suffix_of_readExponent? he).length_le
  unfold readUnsigned? at h
  dsimp only at h
  split at h
  -- behind a point the rest is shorter than what follows the digits
  · next r hpoint =>
    dsimp only at h
    have hlength := congrArg List.length hpoint
    rw [List.length_drop, List.length_cons] at hlength
    have hdrop : (r.drop (r.takeWhile Text.isDigit).length).length ≤ r.length := by
      rw [List.length_drop]
      exact Nat.sub_le _ _
    split at h
    · cases h
    · split at h
      · next he =>
        cases h
        have := hexponent he
        omega
      · cases h
        omega
  -- without a point there are digits
  · dsimp only at h
    have hdrop : (cs.drop (cs.takeWhile Text.isDigit).length).length = cs.length - _ := List.length_drop
    split at h
    · cases h
    · next hsome =>
      rw [List.isEmpty_nil, Bool.and_true, List.isEmpty_iff, ← List.length_eq_zero_iff] at hsome
      split at h
      · next he =>
        cases h
        have := hexponent he
        omega
      · cases h
        omega

end Decimal

namespace Token

/-! ## Readings -/

/-- The tokens of the first statement of a text, and what follows its semicolon. -/
def reading (cs : List Char) : List Token × List Char := ((statement cs).1.map Placed.token, (statement cs).2)

/-- A reading with more tokens in front. -/
def ahead (ts : List Token) (r : List Token × List Char) : List Token × List Char := (ts ++ r.1, r.2)

variable {c : Char} {cs ds k : List Char} {ts us : List Token}

theorem ahead_ahead (ts us : List Token) (r : List Token × List Char) : ahead ts (ahead us r) = ahead (ts ++ us) r := by
  rw [ahead, ahead, ahead, List.append_assoc]

/-- A token is not empty. -/
theorem length_first_pos (c : Char) (r : List Char) : 0 < (first c r).2 := by
  unfold first
  split
  · split <;> exact Nat.succ_pos _
  split
  · split
    · next h =>
      have := Decimal.length_of_readUnsigned? h
      rw [List.length_cons] at this
      dsimp only
      omega
    · exact Nat.one_pos
  split
  · dsimp only
    split
    · next h =>
      split at h
      · split at h
        · simp only [Option.bind_eq_bind, Option.bind_eq_some_iff] at h
          obtain ⟨_, -, _, -, h⟩ := h
          cases h
          exact Nat.succ_pos _
        · cases h
      · cases h
    · exact Nat.succ_pos _
  · exact Nat.one_pos

/-- The number of steps does not matter if it suffices, and neither do the offset and what was found before. -/
theorem statementFrom_reading {fuel offset : Nat} {found : List Placed} (h : cs.length ≤ fuel) :
    ((statementFrom fuel offset cs found).1.map Placed.token, (statementFrom fuel offset cs found).2)
      = ahead (found.reverse.map Placed.token) (reading cs) := by
  have key : ∀ n cs, cs.length ≤ n → ∀ fuel fuel' offset offset' found, cs.length ≤ fuel → cs.length ≤ fuel' →
      ((statementFrom fuel offset cs found).1.map Placed.token, (statementFrom fuel offset cs found).2)
        = ahead (found.reverse.map Placed.token) ((statementFrom fuel' offset' cs []).1.map Placed.token,
            (statementFrom fuel' offset' cs []).2) := by
    intro n
    induction n with
    | zero =>
      intro cs hn fuel fuel' offset offset' found _ _
      rw [List.length_eq_zero_iff.1 (Nat.le_zero.1 hn)]
      cases fuel <;> cases fuel' <;> simp [statementFrom, ahead]
    | succ n ih =>
      intro cs hn fuel fuel' offset offset' found hfuel hfuel'
      obtain _ | ⟨c, r⟩ := cs
      · cases fuel <;> cases fuel' <;> simp [statementFrom, ahead]
      obtain _ | fuel := fuel
      · cases hfuel
      obtain _ | fuel' := fuel'
      · cases hfuel'
      rw [List.length_cons] at hn hfuel hfuel'
      have hdrop : ∀ m, 0 < m → ((c :: r).drop m).length ≤ r.length := fun m hm => by
        rw [List.length_drop, List.length_cons]
        omega
      rw [statementFrom, statementFrom]
      by_cases hc : c = ';'
      · simp [hc, ahead]
      rw [if_neg hc, if_neg hc]
      dsimp only
      by_cases hgap : gapLength (c :: r) = 0
      · rw [if_pos hgap, if_pos hgap]
        have hlength := hdrop _ (length_first_pos c r)
        rw [ih _ (by omega) fuel fuel _ 0 _ (by omega) (by omega),
          ih _ (by omega) fuel' fuel _ 0 _ (by omega) (by omega), ahead_ahead]
        simp
      · rw [if_neg hgap, if_neg hgap]
        have hlength := hdrop _ (Nat.pos_of_ne_zero hgap)
        exact ih _ (by omega) fuel fuel' _ _ _ (by omega) (by omega)
  exact key cs.length cs (Nat.le_refl _) fuel cs.length offset 0 found h (Nat.le_refl _)

/-- A semicolon ends a statement. -/
theorem reading_semicolon (k : List Char) : reading (';' :: k) = ([], k) := by
  rw [reading, statement, List.length_cons, statementFrom, if_pos rfl]
  rfl

theorem reading_token (hc : c ≠ ';') (hgap : gapLength (c :: k) = 0) {t : Token} {n : Nat}
    (hfirst : first c k = (t, n + 1)) : reading (c :: k) = ahead [t] (reading (k.drop n)) := by
  rw [reading, statement, List.length_cons, statementFrom_token hc hgap hfirst]
  exact statementFrom_reading (by rw [List.length_drop]; omega)

theorem reading_gap (hc : c ≠ ';') {n : Nat} (hgap : gapLength (c :: k) = n + 1) :
    reading (c :: k) = reading (k.drop n) := by
  rw [reading, statement, List.length_cons, statementFrom_gap hc hgap]
  exact statementFrom_reading (by rw [List.length_drop]; omega)

/-- Spaces are left out. -/
theorem reading_space (hc : isSpace c = true) (k : List Char) : reading (c :: k) = reading k := by
  have hskip : ∀ {c}, isSpace c = true → ∀ k, reading (c :: k) = reading (k.dropWhile isSpace) := by
    intro c hc k
    have hsemicolon : c ≠ ';' := by
      rintro rfl
      exact absurd hc (by decide)
    have hdrop : k.drop (k.takeWhile isSpace).length = k.dropWhile isSpace :=
      calc k.drop (k.takeWhile isSpace).length
          = (k.takeWhile isSpace ++ k.dropWhile isSpace).drop (k.takeWhile isSpace).length := by
            rw [List.takeWhile_append_dropWhile]
        _ = k.dropWhile isSpace := List.drop_left
    rw [reading_gap hsemicolon (gapLength_of_isSpace hc), hdrop]
  rw [hskip hc]
  obtain _ | ⟨d, k⟩ := k
  · rfl
  cases hd : isSpace d with
  | true => rw [hskip hd, List.dropWhile_cons_of_pos hd]
  | false => rw [List.dropWhile_cons_of_neg (by simp [hd])]

/-- A word is read up to where it ends. -/
theorem reading_word {word : String} (hword : isPlain word = true) (hk : Delimits k) :
    reading (word.toList ++ k) = ahead [.word word] (reading k) := by
  obtain ⟨c, cs, hcs, hc, hrest⟩ := isPlain_iff.1 hword
  have hspelling : String.ofList (c :: cs) = word := by rw [← hcs, String.ofList_toList]
  rw [hcs, List.cons_append, reading_token (ne_of_isWordStart hc (by decide)) (gapLength_of_isWordStart hc)
    (first_word hc hrest hk), List.drop_left, hspelling]

/-- Marks that start nothing else. -/
def marks : List Char := [',', '(', ')', '=', '|', '*']

theorem reading_mark (hc : c ∈ marks) (k : List Char) : reading (c :: k) = ahead [.mark c] (reading k) := by
  simp only [marks, List.mem_cons, List.not_mem_nil, or_false] at hc
  rcases hc with rfl | rfl | rfl | rfl | rfl | rfl <;>
    exact reading_token (n := 0) (by decide) rfl rfl

/-- A point that starts no number. -/
theorem reading_point (hk : ∀ c ∈ k.head?, Text.isDigit c = false) :
    reading ('.' :: k) = ahead [.mark '.'] (reading k) := by
  refine reading_token (n := 0) (by decide) rfl ?_
  have hhead : (k.head?.map Text.isDigit).getD false = false := by
    cases k with
    | nil => rfl
    | cons c k => exact hk c rfl
  unfold first
  rw [if_neg (by decide), hhead, if_neg (by decide), if_neg (by decide)]

/-! ## Pieces -/

/-- A piece of a text that is read in the same way before anything. -/
def Passes (cs : List Char) (ts : List Token) : Prop := ∀ k, reading (cs ++ k) = ahead ts (reading k)

/-- A piece of a text that is read in the same way wherever it ends. -/
def Reads (cs : List Char) (ts : List Token) : Prop := ∀ k, Delimits k → reading (cs ++ k) = ahead ts (reading k)

theorem Passes.reads (h : Passes cs ts) : Reads cs ts := fun k _ => h k

theorem Passes.append (h : Passes cs ts) (h' : Reads ds us) : Reads (cs ++ ds) (ts ++ us) := fun k hk => by
  rw [List.append_assoc, h, h' k hk, ahead_ahead]

/-- Whether a piece starts with a delimiter. -/
def starts : List Char → Bool
  | [] => false
  | d :: _ => !isWordChar d && d != '\x27'

theorem starts_append (h : starts cs = true) (ds : List Char) : starts (cs ++ ds) = true := by
  cases cs with
  | nil => cases h
  | cons d cs => exact h

theorem delimits_of_starts (h : starts cs = true) : Delimits cs := by
  cases cs with
  | nil => cases h
  | cons d cs =>
    rintro _ ⟨⟩
    simpa [starts] using h

namespace Reads

theorem word {word : String} (h : isPlain word = true) : Reads word.toList [.word word] := fun _ hk => reading_word h hk

/-- A piece ends where another one starts with a delimiter. -/
theorem append (h : Reads cs ts) (h' : Reads ds us) (hds : starts ds = true) : Reads (cs ++ ds) (ts ++ us) :=
  fun k hk => by
    rw [List.append_assoc, h _ (delimits_of_starts (starts_append hds k)), h' k hk, ahead_ahead]

theorem flatMap {α : Type} {f : α → List Char} {g : α → List Token} (h : Reads cs ts) (h' : ∀ a, Reads (f a) (g a))
    (hf : ∀ a, starts (f a) = true) (as : List α) : Reads (cs ++ as.flatMap f) (ts ++ as.flatMap g) := by
  induction as generalizing cs ts with
  | nil => simpa using h
  | cons a as ih =>
    rw [List.flatMap_cons, List.flatMap_cons, ← List.append_assoc, ← List.append_assoc]
    exact ih (h.append (h' a) (hf a))

/-- A semicolon ends the statement. -/
theorem reading_semicolon (h : Reads cs ts) (k : List Char) : reading (cs ++ ';' :: k) = (ts, k) := by
  have hk : Delimits (';' :: k) := by
    rintro _ ⟨⟩
    decide
  rw [h _ hk, Token.reading_semicolon, ahead, List.append_nil]

end Reads

/-- The tokens of a word in front of something else, if there is one. Its characters are in reverse. -/
def ended (word : List Char) : List Token := if word.isEmpty then [] else [.word (String.ofList word.reverse)]

/-- A word ends in front of a character that it does not go on with. -/
theorem reading_ended {word : List Char} (hword : word = [] ∨ isPlain (String.ofList word.reverse) = true)
    (hc : (!word.isEmpty && isWordChar c) = false) (hquote : c ≠ '\x27') (k : List Char) :
    reading (word.reverse ++ c :: k) = ahead (ended word) (reading (c :: k)) := by
  obtain rfl | hplain := hword
  · rfl
  have hne : word.isEmpty = false := by
    cases word with
    | nil => cases hplain
    | cons _ _ => rfl
  rw [hne, Bool.not_false, Bool.true_and] at hc
  have hread := reading_word (k := c :: k) hplain (by rintro _ ⟨⟩; exact ⟨hc, hquote⟩)
  rw [String.toList_ofList] at hread
  rw [hread, ended, hne]
  rfl

/-- A word goes on with its next character. -/
theorem isPlain_reverse_cons {word : List Char} (hword : word = [] ∨ isPlain (String.ofList word.reverse) = true)
    (hc : (isWordStart c || (!word.isEmpty && isWordChar c)) = true) :
    isPlain (String.ofList (c :: word).reverse) = true := by
  rw [List.reverse_cons, isPlain_iff]
  obtain rfl | hplain := hword
  · exact ⟨c, [], String.toList_ofList, by simpa using hc, by simp⟩
  obtain ⟨d, ds, hds, hd, hrest⟩ := isPlain_iff.1 hplain
  rw [String.toList_ofList] at hds
  refine ⟨d, ds ++ [c], by rw [String.toList_ofList, hds]; rfl, hd, fun e he => ?_⟩
  obtain he | he := List.mem_append.1 he
  · exact hrest e he
  · rw [List.mem_singleton.1 he]
    obtain hc | hc := Bool.or_eq_true_iff.1 hc
    · exact isWordChar_of_isWordStart hc
    · exact (Bool.and_eq_true_iff.1 hc).2

/-- The tokens of a text of words, spaces and marks. The characters read of a word are kept in reverse. -/
def plainTokens? (word : List Char) : List Char → Option (List Token)
  | [] => some (ended word)
  | c :: r =>
    if isWordStart c || (!word.isEmpty && isWordChar c) then plainTokens? (c :: word) r
    else if isSpace c then (plainTokens? [] r).map (ended word ++ ·)
    else if c ∈ marks || (c = '.' && (r.head?.map fun d => !Text.isDigit d).getD false) then
      (plainTokens? [] r).map (ended word ++ .mark c :: ·)
    else none

/-- A last word is read before a delimiter. Where none follows, there is no word. -/
theorem reading_lastWord {word : List Char} (hword : word = [] ∨ isPlain (String.ofList word.reverse) = true)
    (hk : Delimits k ∨ ∀ c ∈ word.reverse.getLast?, isWordChar c = false) :
    reading (word.reverse ++ k) = ahead (ended word) (reading k) := by
  obtain rfl | hplain := hword
  · rfl
  obtain ⟨d, ds, hds, hd, hrest⟩ := isPlain_iff.1 hplain
  rw [String.toList_ofList] at hds
  have hdelimits : Delimits k := by
    refine hk.resolve_right fun hlast => ?_
    rw [hds, List.getLast?_eq_some_getLast (List.cons_ne_nil d ds)] at hlast
    have hfalse := hlast _ rfl
    obtain hmem | hmem := List.mem_cons.1 (List.getLast_mem (List.cons_ne_nil d ds))
    · rw [hmem, isWordChar_of_isWordStart hd] at hfalse
      cases hfalse
    · rw [hrest _ hmem] at hfalse
      cases hfalse
  have hread := reading_word hplain hdelimits
  have hne : word.isEmpty = false := by
    cases word with
    | nil => cases hds
    | cons _ _ => rfl
  rw [String.toList_ofList] at hread
  rw [hread, ended, hne]
  rfl

/-- A mark, or a point without a digit behind it. -/
theorem reading_markOrPoint {c : Char} {r : List Char}
    (hc : c ∈ marks ∨ c = '.' ∧ (r.head?.map fun d => !Text.isDigit d).getD false = true) :
    reading (c :: (r ++ k)) = ahead [.mark c] (reading (r ++ k)) := by
  obtain hmark | ⟨rfl, hdigit⟩ := hc
  · exact reading_mark hmark _
  · cases r with
    | nil => cases hdigit
    | cons d r => exact reading_point (by rintro _ ⟨⟩; simpa using hdigit)

/-- A text of words, spaces and marks is read so before a delimiter, and if it does not end with a word, before
anything. -/
theorem reading_plainTokens? {word : List Char} (hword : word = [] ∨ isPlain (String.ofList word.reverse) = true)
    (h : plainTokens? word cs = some ts)
    (hk : Delimits k ∨ ∀ c ∈ (word.reverse ++ cs).getLast?, isWordChar c = false) :
    reading (word.reverse ++ (cs ++ k)) = ahead ts (reading k) := by
  induction cs generalizing word ts with
  | nil =>
    cases h
    rw [List.append_nil] at hk
    exact reading_lastWord hword hk
  | cons c r ih =>
    -- what is behind this character ends as the whole does
    have hrest : Delimits k ∨ ∀ c ∈ ([].reverse ++ r).getLast?, isWordChar c = false := by
      refine hk.imp_right fun hlast d hd => hlast d ?_
      rw [List.getLast?_append_of_ne_nil _ (List.cons_ne_nil c r), List.getLast?_cons]
      rw [List.reverse_nil, List.nil_append] at hd
      rw [Option.mem_def.1 hd]
      rfl
    rw [plainTokens?] at h
    split at h
    · next hc =>
      have hgoes := ih (.inr (isPlain_reverse_cons hword hc)) h
        (by rwa [List.reverse_cons, List.append_assoc])
      rwa [List.reverse_cons, List.append_assoc] at hgoes
    · next hc =>
      rw [Bool.not_eq_true, Bool.or_eq_false_iff] at hc
      split at h
      · next hspace =>
        obtain ⟨us, hus, rfl⟩ := Option.map_eq_some_iff.1 h
        have hquote : c ≠ '\x27' := by
          rintro rfl
          exact absurd hspace (by decide)
        rw [List.cons_append, reading_ended hword hc.2 hquote, reading_space hspace, ← ahead_ahead]
        exact congrArg _ (ih (.inl rfl) hus hrest)
      split at h
      · next hmark =>
        obtain ⟨us, hus, rfl⟩ := Option.map_eq_some_iff.1 h
        have hquote : c ≠ '\x27' := by
          rintro rfl
          exact absurd hmark (by simp [marks])
        rw [Bool.or_eq_true_iff, decide_eq_true_iff, Bool.and_eq_true_iff, decide_eq_true_iff] at hmark
        rw [List.cons_append, reading_ended hword hc.2 hquote, reading_markOrPoint hmark, ← ahead_ahead]
        exact congrArg _ (congrArg _ (ih (.inl rfl) hus hrest))
      · cases h

theorem Reads.of_plainTokens? (h : plainTokens? [] cs = some ts) : Reads cs ts := fun _ hk =>
  reading_plainTokens? (.inl rfl) h (.inl hk)

theorem Passes.of_plainTokens? (h : plainTokens? [] cs = some ts) (hlast : cs.getLast?.any isWordChar = false) :
    Passes cs ts := by
  refine fun _ => reading_plainTokens? (.inl rfl) h (.inr fun c hc => ?_)
  rwa [show cs.getLast? = some c from hc] at hlast

end Token

end Provenance.Store
