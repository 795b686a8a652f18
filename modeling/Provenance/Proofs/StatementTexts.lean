import Mathlib.Data.List.TakeWhile
import Provenance.Proofs.Database

/-!
# Reading statement texts back

A statement text is cut into words, and a word is a plain identifier: a letter or an underscore, and then letters,
digits, underscores and dollar signs. So a sentence of plain identifiers is read as the words that it was made from. A
text that drops tables is read as what it was made from if the names of the tables are plain identifiers, and only then.
-/

namespace Provenance

open Store

/-! ## Plain identifiers -/

namespace Store.Token

/-- Whether a name can stand in a statement as it is. -/
def isPlain (name : String) : Bool :=
  match name.toList with
  | [] => false
  | c :: cs => isWordStart c && cs.all isWordChar

theorem isPlain_iff {name : String} :
    isPlain name = true ↔ ∃ c cs, name.toList = c :: cs ∧ isWordStart c = true ∧ ∀ d ∈ cs, isWordChar d = true := by
  rw [isPlain]
  split
  · next h => simp [h]
  · next c cs h => simp [h]

/-- What stands behind a word: it does not go on with the word and is no quote. -/
def Delimits (k : List Char) : Prop := ∀ c ∈ k.head?, isWordChar c = false ∧ c ≠ '\x27'

/-- Characters that no word has. -/
def delimiters : List Char := [' ', '\t', '\n', '\r', '\x0c', ';', '\x27', '.']

theorem isWordChar_of_mem_delimiters {c : Char} (hc : c ∈ delimiters) : isWordChar c = false := by
  have hall : delimiters.all (fun c => !isWordChar c) = true := by decide
  simpa using List.all_eq_true.1 hall c hc

theorem isWordChar_of_isWordStart {c : Char} (hc : isWordStart c = true) : isWordChar c = true := by
  simp [isWordChar, hc]

theorem ne_of_isWordStart {c d : Char} (hc : isWordStart c = true) (hd : d ∈ delimiters) : c ≠ d := by
  rintro rfl
  exact Bool.eq_false_iff.1 (isWordChar_of_mem_delimiters hd) (isWordChar_of_isWordStart hc)

theorem isDigit_eq_false_of_isWordStart {c : Char} (hc : isWordStart c = true) : Text.isDigit c = false := by
  rw [Bool.eq_false_iff]
  intro hdigit
  simp only [isWordStart, Text.isDigit, Bool.or_eq_true, Bool.and_eq_true, decide_eq_true_eq, beq_iff_eq, Char.le_def,
    UInt32.le_iff_toNat_le] at hc hdigit
  obtain ((hc | hc) | rfl) | hc := hc
  · exact absurd (hc.1.trans hdigit.2) (by decide)
  · exact absurd (hc.1.trans hdigit.2) (by decide)
  · exact absurd hdigit.2 (by decide)
  · exact absurd (hc.trans hdigit.2) (by decide)

theorem takeWhile_accepted {accepts : Char → Bool} {cs k : List Char} (hcs : ∀ d ∈ cs, accepts d = true)
    (hk : ∀ d ∈ k.head?, accepts d = false) : (cs ++ k).takeWhile accepts = cs := by
  rw [List.takeWhile_append_of_pos hcs]
  cases k with
  | nil => simp
  | cons c k => rw [List.takeWhile_cons_of_neg (by simp [hk c rfl]), List.append_nil]

/-- Behind the first letter of a word no quote stands. -/
theorem head_ne_quote {cs k : List Char} (hcs : ∀ d ∈ cs, isWordChar d = true) (hk : Delimits k) (body : List Char) :
    cs ++ k ≠ '\x27' :: body := by
  intro h
  cases cs with
  | nil => exact (hk '\x27' (by rw [show k = '\x27' :: body from h]; rfl)).2 rfl
  | cons d cs =>
    cases h
    exact absurd (hcs '\x27' List.mem_cons_self) (by decide)

/-- A word is read up to where it ends. -/
theorem first_word {c : Char} {cs k : List Char} (hc : isWordStart c = true) (hcs : ∀ d ∈ cs, isWordChar d = true)
    (hk : Delimits k) : first c (cs ++ k) = (.word (String.ofList (c :: cs)), cs.length + 1) := by
  have hquote : c ≠ '\x27' := ne_of_isWordStart hc (by decide)
  have hdot : (c == '.') = false := beq_eq_false_iff_ne.2 (ne_of_isWordStart hc (by decide))
  have hhex : ∀ body : List Char, cs ++ k ≠ '\x27' :: body := head_ne_quote hcs hk
  unfold first
  rw [if_neg hquote, isDigit_eq_false_of_isWordStart hc, hdot, if_neg (by simp), if_pos hc]
  dsimp only
  split
  · next hbody =>
    split at hbody
    · split at hbody
      · next body h => exact absurd h (hhex body)
      · cases hbody
    · cases hbody
  · rw [takeWhile_accepted hcs fun d hd => (hk d hd).1, List.length_cons]

/-- A word that is read is a plain identifier. -/
theorem isPlain_of_first {c : Char} {r : List Char} {w : String} {n : Nat} (h : first c r = (.word w, n)) :
    isPlain w = true := by
  unfold first at h
  split at h
  · split at h <;> cases h
  split at h
  · split at h <;> cases h
  split at h
  · next hc =>
    dsimp only at h
    split at h
    · cases h
    · cases h
      exact isPlain_iff.2 ⟨c, _, String.toList_ofList, hc, fun d hd => List.mem_takeWhile_imp hd⟩
  · cases h

/-! ## Sentences -/

variable {fuel offset : Nat} {found : List Placed} {k rest : List Char}

theorem isSpace_eq_false_of_isWordStart {c : Char} (hc : isWordStart c = true) : isSpace c = false := by
  simp only [isSpace, Bool.or_eq_false_iff, beq_eq_false_iff_ne]
  refine ⟨⟨⟨⟨?_, ?_⟩, ?_⟩, ?_⟩, ?_⟩ <;> exact ne_of_isWordStart hc (by decide)

theorem gapLength_of_isWordStart {c : Char} (hc : isWordStart c = true) : gapLength (c :: k) = 0 := by
  unfold gapLength
  split
  · next h => cases h; exact absurd hc (by decide)
  · next h => cases h; exact absurd hc (by decide)
  · next h => cases h; rw [isSpace_eq_false_of_isWordStart hc, if_neg Bool.false_ne_true]
  · rfl

theorem gapLength_of_isSpace {c : Char} (hc : isSpace c = true) :
    gapLength (c :: k) = (k.takeWhile isSpace).length + 1 := by
  unfold gapLength
  split
  · next h => cases h; exact absurd hc (by decide)
  · next h => cases h; exact absurd hc (by decide)
  · next h => cases h; rw [if_pos hc, Nat.add_comm]
  · next h => cases h

theorem statementFrom_gap {c : Char} (hc : c ≠ ';') {n : Nat} (hgap : gapLength (c :: k) = n + 1) :
    statementFrom (fuel + 1) offset (c :: k) found
      = statementFrom fuel (offset + byteLength ((c :: k).take (n + 1))) (k.drop n) found := by
  rw [statementFrom, if_neg hc, hgap]
  rfl

theorem statementFrom_token {c : Char} (hc : c ≠ ';') (hgap : gapLength (c :: k) = 0) {token : Token} {n : Nat}
    (hfirst : first c k = (token, n + 1)) :
    statementFrom (fuel + 1) offset (c :: k) found
      = statementFrom fuel (offset + byteLength ((c :: k).take (n + 1))) (k.drop n)
          (⟨token, offset, String.ofList ((c :: k).take (n + 1))⟩ :: found) := by
  rw [statementFrom, if_neg hc, hgap, if_pos rfl, hfirst]
  rfl

/-- Spaces before something else are left out. -/
theorem statementFrom_spaces (fuel offset : Nat) (found : List Placed) {c : Char} {gap : List Char}
    (hgap : ∀ d ∈ c :: gap, isSpace d = true)
    (hk : ∀ d ∈ k.head?, isSpace d = false) :
    ∃ offset', statementFrom (fuel + 1) offset (c :: (gap ++ k)) found = statementFrom fuel offset' k found := by
  have hc := hgap c List.mem_cons_self
  have hsemicolon : c ≠ ';' := by
    rintro rfl
    exact absurd hc (by decide)
  have htake : (gap ++ k).takeWhile isSpace = gap :=
    takeWhile_accepted (fun d hd => hgap d (List.mem_cons_of_mem _ hd)) hk
  have hlength : gapLength (c :: (gap ++ k)) = gap.length + 1 := by rw [gapLength_of_isSpace hc, htake]
  rw [statementFrom_gap hsemicolon hlength, List.drop_left]
  exact ⟨_, rfl⟩

/-- A word is found as it stands. -/
theorem statementFrom_word (fuel offset : Nat) (found : List Placed) {word : String} (hword : isPlain word = true)
    (hk : Delimits k) :
    ∃ offset' p, statementFrom (fuel + 1) offset (word.toList ++ k) found = statementFrom fuel offset' k (p :: found) ∧
      p.token = .word word := by
  obtain ⟨c, cs, hcs, hc, hrest⟩ := isPlain_iff.1 hword
  have hspelling : String.ofList (c :: cs) = word := by rw [← hcs, String.ofList_toList]
  rw [hcs, List.cons_append, statementFrom_token (ne_of_isWordStart hc (by decide)) (gapLength_of_isWordStart hc)
    (first_word hc hrest hk), List.drop_left, hspelling]
  exact ⟨_, _, rfl, rfl⟩

/-- Words, each with a blank behind it. -/
def spaced (words : List String) : List Char := words.flatMap fun w => w.toList ++ [' ']

theorem two_mul_length_le_spaced {words : List String} (hwords : ∀ w ∈ words, isPlain w = true) :
    2 * words.length ≤ (spaced words).length := by
  induction words with
  | nil => exact Nat.le_refl _
  | cons w words ih =>
    obtain ⟨c, cs, hcs, -⟩ := isPlain_iff.1 (hwords w List.mem_cons_self)
    have hrest := ih fun w hw => hwords w (List.mem_cons_of_mem _ hw)
    simp only [spaced, List.flatMap_cons, List.length_append, List.length_cons, List.length_nil, hcs] at hrest ⊢
    omega

theorem head_of_isPlain {word : String} (hword : isPlain word = true) :
    ∀ c ∈ (word.toList ++ k).head?, isSpace c = false := by
  obtain ⟨c, cs, hcs, hc, -⟩ := isPlain_iff.1 hword
  rw [hcs]
  rintro _ ⟨⟩
  exact isSpace_eq_false_of_isWordStart hc

theorem head_of_spaced {words : List String} (hwords : ∀ w ∈ words, isPlain w = true) {last : String}
    (hlast : isPlain last = true) : ∀ c ∈ (spaced words ++ (last.toList ++ k)).head?, isSpace c = false := by
  cases words with
  | nil => exact head_of_isPlain hlast
  | cons w words =>
    rw [spaced, List.flatMap_cons, List.append_assoc, List.append_assoc]
    exact head_of_isPlain (hwords w List.mem_cons_self)

/-- Words with blanks between them are found in their order. A word takes two steps, one of them for the blank. -/
theorem statementFrom_spaced (fuel offset : Nat) (found : List Placed) {words : List String}
    (hwords : ∀ w ∈ words, isPlain w = true) {last : String} (hlast : isPlain last = true) (hk : Delimits k) :
    ∃ offset' found', statementFrom (fuel + 1 + 2 * words.length) offset (spaced words ++ (last.toList ++ k)) found
        = statementFrom fuel offset' k found' ∧
      found'.map Placed.token = ((words ++ [last]).map Token.word).reverse ++ found.map Placed.token := by
  induction words generalizing offset found with
  | nil =>
    obtain ⟨offset', p, hread, hp⟩ := statementFrom_word fuel offset found hlast hk
    exact ⟨offset', _, hread, by simp [hp]⟩
  | cons w words ih =>
    have hw := hwords w List.mem_cons_self
    have hwords' : ∀ w ∈ words, isPlain w = true := fun w hw => hwords w (List.mem_cons_of_mem _ hw)
    have hblank : Delimits (' ' :: (spaced words ++ (last.toList ++ k))) := by
      rintro _ ⟨⟩
      decide
    obtain ⟨o₁, p, hfirst, hp⟩ := statementFrom_word (fuel + 1 + 2 * words.length + 1) offset found hw hblank
    obtain ⟨o₂, hgap⟩ := statementFrom_spaces (fuel + 1 + 2 * words.length) o₁ (p :: found)
      (List.forall_mem_singleton.2 (show isSpace ' ' = true by decide)) (head_of_spaced hwords' hlast)
    obtain ⟨o₃, found', hrest, hfound⟩ := ih o₂ (p :: found) hwords'
    refine ⟨o₃, found', ?_, by simp [hfound, hp]⟩
    rw [← hrest, ← hgap, List.nil_append, ← hfirst, spaced, List.flatMap_cons, List.append_assoc, List.append_assoc]
    rfl

/-- A sentence of words is read as these words. What follows its semicolon is still to be read. -/
theorem statement_sentence {gap : List Char} (hgap : ∀ c ∈ gap, isSpace c = true) {words : List String}
    (hwords : ∀ w ∈ words, isPlain w = true) {last : String} (hlast : isPlain last = true) (rest : List Char) :
    ∃ tokens, statement (gap ++ (spaced words ++ (last.toList ++ ';' :: rest))) = (tokens, rest) ∧
      tokens.map Placed.token = (words ++ [last]).map Token.word := by
  have hsemicolon : Delimits (';' :: rest) := by
    rintro _ ⟨⟩
    decide
  -- The characters suffice for two steps a word, one more for the last, and one for the semicolon.
  have hroom : ∃ n, (spaced words ++ (last.toList ++ ';' :: rest)).length = n + 1 + 1 + 2 * words.length := by
    obtain ⟨c, cs, hcs, -⟩ := isPlain_iff.1 hlast
    have hspaced := two_mul_length_le_spaced hwords
    simp only [List.length_append, List.length_cons, hcs]
    exact ⟨(spaced words).length - 2 * words.length + cs.length + rest.length, by omega⟩
  obtain ⟨n, hn⟩ := hroom
  have hread : ∀ n offset, ∃ tokens, statementFrom (n + 1 + 1 + 2 * words.length) offset
      (spaced words ++ (last.toList ++ ';' :: rest)) [] = (tokens, rest) ∧
        tokens.map Placed.token = (words ++ [last]).map Token.word := by
    intro n offset
    obtain ⟨_, found, hread, hfound⟩ := statementFrom_spaced (n + 1) offset [] hwords hlast
      hsemicolon
    refine ⟨found.reverse, by rw [hread, statementFrom, if_pos rfl], ?_⟩
    rw [List.map_reverse, hfound, List.map_nil, List.append_nil, List.reverse_reverse]
  rw [statement, List.length_append, hn]
  cases gap with
  | nil =>
    rw [List.length_nil, Nat.zero_add]
    exact hread n 0
  | cons c gap =>
    have hfuel : (c :: gap).length + (n + 1 + 1 + 2 * words.length)
        = gap.length + n + 1 + 1 + 2 * words.length + 1 := by
      rw [List.length_cons]
      omega
    obtain ⟨offset, hskip⟩ := statementFrom_spaces (gap.length + n + 1 + 1 + 2 * words.length) 0 [] hgap
      (head_of_spaced (k := ';' :: rest) hwords hlast)
    rw [hfuel, List.cons_append, hskip]
    exact hread _ offset

/-- Spaces alone are no statement. -/
theorem statement_spaces {gap : List Char} (hgap : ∀ c ∈ gap, isSpace c = true) : statement gap = ([], []) := by
  cases gap with
  | nil => rfl
  | cons c gap =>
    obtain ⟨offset, hskip⟩ := statementFrom_spaces (k := []) gap.length 0 [] hgap (by simp)
    rw [List.append_nil] at hskip
    rw [statement, List.length_cons, hskip]
    cases gap <;> rfl

/-- Every word that is found is a plain identifier. -/
theorem isPlain_of_mem_statementFrom {cs : List Char}
    (hfound : ∀ p ∈ found, ∀ w, p.token = .word w → isPlain w = true) :
    ∀ p ∈ (statementFrom fuel offset cs found).1, ∀ w, p.token = .word w → isPlain w = true := by
  induction fuel generalizing offset cs found with
  | zero => simpa [statementFrom] using hfound
  | succ fuel ih =>
    cases cs with
    | nil => simpa [statementFrom] using hfound
    | cons c r =>
      rw [statementFrom]
      split
      · simpa using hfound
      · dsimp only
        split
        -- a token was found, and it comes before those found so far
        · refine ih fun p hp w hw => ?_
          obtain rfl | hp := List.mem_cons.1 hp
          · exact isPlain_of_first (Prod.ext hw rfl)
          · exact hfound p hp w hw
        · exact ih hfound

end Store.Token

namespace Store.Reader

open Token

/-- The statements of a text, one after the other. The number bounds the characters that are still to be read. -/
def statementsFrom : Nat → List Char → Option (List Statement)
  | 0, _ => some []
  | fuel + 1, cs =>
    if cs.isEmpty then some []
    else
      let (tokens, rest) := Token.statement cs
      if tokens.isEmpty then statementsFrom fuel rest
      else do
        let first ← statement? (tokens.map Placed.token)
        let others ← statementsFrom fuel rest
        pure (first :: others)

/-- The statements that a text is read as, if each of them can be read. -/
def statements? (text : String) : Option (List Statement) := statementsFrom (text.length + 1) text.toList

variable {fuel : Nat} {cs : List Char} {ss : List Statement}

/-- A text that can be read is executed as its statements. -/
theorem runText_of_statementsFrom (h : statementsFrom fuel cs = some ss) {closed : Bool} {db db' : Database}
    {last answer : Option (List Row)} (hrun : Database.runAll closed db last ss = (.ok answer, db')) :
    Database.runText fuel db last cs = (.ok answer, db') := by
  induction fuel generalizing db last cs ss with
  | zero =>
    cases h
    exact hrun
  | succ fuel ih =>
    rw [statementsFrom] at h
    rw [Database.runText]
    split at h
    · next hempty =>
      cases h
      rw [if_pos hempty]
      exact hrun
    · next hempty =>
      rw [if_neg hempty]
      dsimp only at h ⊢
      split at h
      · next hnone =>
        rw [List.isEmpty_iff.1 hnone]
        exact ih h hrun
      · next hsome =>
        simp only [Option.bind_eq_bind, Option.bind_eq_some_iff] at h
        obtain ⟨first, hfirst, others, hothers, hss⟩ := h
        cases hss
        rw [Database.runAll] at hrun
        split
        · next hnone => exact absurd (List.isEmpty_iff.2 hnone) hsome
        · rw [hfirst]
          dsimp only
          split at hrun
          · exact ih hothers hrun
          · cases hrun

/-- A reader of statements that are no drops. -/
def NeverDrops (read : List Token → Option Statement) : Prop :=
  ∀ ts ifPresent name, read ts ≠ some (.drop ifPresent name)

theorem select?_neverDrops : NeverDrops select? := by
  intro ts ifPresent name h
  unfold select? at h
  split at h <;> simp [Option.bind_eq_some_iff] at h

theorem createTable?_neverDrops : NeverDrops createTable? := by
  have hbody : ∀ ifAbsent table, NeverDrops (createTable?.body ifAbsent table) := by
    intro ifAbsent table ts ifPresent name h
    unfold createTable?.body at h
    split at h <;> simp at h
  intro ts ifPresent name h
  unfold createTable? at h
  split at h
  · split at h
    · exact hbody _ _ _ _ _ h
    · cases h
  · exact hbody _ _ _ _ _ h
  · cases h

theorem insert?_neverDrops : NeverDrops insert? := by
  intro ts ifPresent name h
  unfold insert? at h
  split at h
  · simp only [Option.bind_eq_bind, Option.bind_eq_some_iff] at h
    obtain ⟨_, -, _, -, h⟩ := h
    split at h
    · cases h
    · split at h <;> simp [Option.bind_eq_some_iff] at h
    · cases h
  · cases h

theorem delete?_neverDrops : NeverDrops delete? := by
  intro ts ifPresent name h
  simp [delete?, Option.bind_eq_some_iff] at h

theorem update?_neverDrops : NeverDrops update? := by
  intro ts ifPresent name h
  unfold update? at h
  split at h
  · simp only [Option.bind_eq_bind, Option.bind_eq_some_iff] at h
    obtain ⟨_, -, _, -, h⟩ := h
    split at h <;> cases h
  · cases h

theorem mem_of_dropTable? {ts : List Token} {ifPresent : Bool} {name : String}
    (h : dropTable? ts = some (.drop ifPresent name)) : .word name ∈ ts := by
  unfold dropTable? at h
  split at h
  · cases h
    exact List.mem_cons_self
  · split at h
    · cases h
      simp
    · cases h
  · cases h

/-- A statement that drops a table has its name among its words. -/
theorem mem_of_statement?_drop {ts : List Token} {ifPresent : Bool} {name : String}
    (h : statement? ts = some (.drop ifPresent name)) : .word name ∈ ts := by
  unfold statement? at h
  split at h
  · split at h
    · exact absurd h (select?_neverDrops _ _ _)
    · split at h
      · exact absurd h (createTable?_neverDrops _ _ _)
      · cases h
    · split at h
      · exact List.mem_cons_of_mem _ (List.mem_cons_of_mem _ (mem_of_dropTable? h))
      · cases h
    · split at h
      · exact absurd h (insert?_neverDrops _ _ _)
      · cases h
    · split at h
      · exact absurd h (delete?_neverDrops _ _ _)
      · cases h
    · exact absurd h (update?_neverDrops _ _ _)
    · cases h
  · cases h

/-- Every table that a text drops has a plain identifier as its name. -/
theorem isPlain_of_drop_mem (h : statementsFrom fuel cs = some ss) {ifPresent : Bool} {name : String}
    (hname : .drop ifPresent name ∈ ss) : isPlain name = true := by
  induction fuel generalizing cs ss with
  | zero =>
    cases h
    cases hname
  | succ fuel ih =>
    rw [statementsFrom] at h
    split at h
    · cases h
      cases hname
    · dsimp only at h
      split at h
      · exact ih h hname
      · simp only [Option.bind_eq_bind, Option.bind_eq_some_iff] at h
        obtain ⟨first, hfirst, others, hothers, hss⟩ := h
        cases hss
        obtain rfl | hname := List.mem_cons.1 hname
        · obtain ⟨p, hp, hword⟩ := List.mem_map.1 (mem_of_statement?_drop hfirst)
          exact isPlain_of_mem_statementFrom (fun _ hq => absurd hq List.not_mem_nil) p hp name hword
        · exact ih hothers hname

/-! ## Texts that drop tables -/

/-- The words in front of the name. -/
def dropWords : List String := ["DROP", "TABLE", "IF", "EXISTS"]

theorem statement?_discard (name : String) :
    statement? ((dropWords ++ [name]).map Token.word) = some (.discard name) := by
  have hdrop : "DROP".toUpper = "DROP" := by decide +kernel
  have hwords : ∀ w ∈ ["TABLE", "IF", "EXISTS"], w.toUpper = w := by decide +kernel
  simp [dropWords, statement?, dropTable?, isKeyword, Statement.discard, hdrop, hwords]

/-- The lines of the text, one for each table. -/
def dropLines (names : List String) : List Char :=
  names.flatMap fun name => spaced dropWords ++ (name.toList ++ [';', '\n'])

theorem toList_text_discard (name : String) :
    ((Statement.discard name).text ++ "\n").toList = spaced dropWords ++ (name.toList ++ [';', '\n']) := by
  have htext : (Statement.discard name).text = "DROP TABLE " ++ "IF EXISTS " ++ name ++ ";" := rfl
  have hstart : spaced dropWords = "DROP TABLE ".toList ++ "IF EXISTS ".toList := by decide +kernel
  have hstop : [';', '\n'] = ";".toList ++ "\n".toList := by decide +kernel
  rw [htext, hstart, hstop]
  simp only [String.toList_append, List.append_assoc]

theorem toList_text_discards (names : List String) :
    (Request.lines (names.map Statement.discard)).text.toList = dropLines names := by
  rw [Request.lines, Request.text, String.toList_join, List.map_map, List.flatMap_map]
  exact List.flatMap_congr fun name _ => toList_text_discard name

theorem statementsFrom_dropLines {names : List String} (hplain : ∀ name ∈ names, isPlain name = true) {gap : List Char}
    (hgap : ∀ c ∈ gap, isSpace c = true) (hfuel : (gap ++ dropLines names).length < fuel) :
    statementsFrom fuel (gap ++ dropLines names) = some (names.map Statement.discard) := by
  induction names generalizing gap fuel with
  | nil =>
    obtain _ | fuel := fuel
    · rfl
    · rw [dropLines, List.flatMap_nil, List.append_nil, statementsFrom, statement_spaces hgap]
      split
      · rfl
      · cases fuel <;> rfl
  | cons name names ih =>
    -- the feed that ends this line is a gap in front of the next one, so that the gap is part of the induction
    obtain _ | fuel := fuel
    · exact absurd hfuel (Nat.not_lt_zero _)
    have hline : gap ++ dropLines (name :: names)
        = gap ++ (spaced dropWords ++ (name.toList ++ ';' :: (['\n'] ++ dropLines names))) := by
      simp [dropLines]
    obtain ⟨tokens, hread, htokens⟩ := statement_sentence hgap (show ∀ w ∈ dropWords, isPlain w = true by decide)
      (hplain name List.mem_cons_self) (['\n'] ++ dropLines names)
    have hrest : statementsFrom fuel (['\n'] ++ dropLines names) = some (names.map Statement.discard) := by
      refine ih (fun n hn => hplain n (List.mem_cons_of_mem _ hn)) (List.forall_mem_singleton.2 (by decide)) ?_
      rw [hline] at hfuel
      simp only [List.length_append, List.length_cons] at hfuel ⊢
      omega
    have hsome : tokens.isEmpty = false := by
      rw [← List.isEmpty_map (f := Placed.token), htokens]
      rfl
    have hne : (gap ++ dropLines (name :: names)).isEmpty = false := by
      rw [hline]
      simp
    rw [statementsFrom, hne, hline, hread, if_neg Bool.false_ne_true]
    dsimp only
    rw [hsome, if_neg Bool.false_ne_true, htokens, statement?_discard, hrest]
    rfl

/-- A text that drops tables is read as what it was made from if, and only if, the names are plain. -/
theorem statements?_discards_iff (names : List String) :
    statements? (Request.lines (names.map Statement.discard)).text = some (names.map Statement.discard) ↔
      ∀ name ∈ names, isPlain name = true := by
  constructor
  · intro h name hname
    exact isPlain_of_drop_mem h (List.mem_map_of_mem hname)
  · intro hplain
    rw [statements?, toList_text_discards]
    rw [← List.nil_append (dropLines names)]
    refine statementsFrom_dropLines hplain (fun _ hc => absurd hc List.not_mem_nil) ?_
    rw [List.nil_append, ← toList_text_discards, String.length_toList]
    exact Nat.lt_succ_self _

end Store.Reader

end Provenance
