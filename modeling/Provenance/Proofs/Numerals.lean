import Provenance.Text.Numeral

/-!
# Reading what was written

Different numbers are written differently, and a word is read back from its text.
-/

namespace Provenance.Text

theorem natural_injective {m n : Nat} (h : natural m = natural n) : m = n := by
  have h' := congrArg (fun s : String => Nat.ofDigitChars 10 s.toList 0) h
  simpa [natural, String.toList_ofList] using h'

theorem natural_ne_minus (m n : Nat) : natural m ≠ "-" ++ natural n := by
  intro h
  have hm : '-' ∈ (natural m).toList := by rw [h]; simp
  rw [natural, String.toList_ofList] at hm
  exact absurd (Nat.isDigit_of_mem_toDigits (by decide) (by decide) hm) (by decide)

/-- Different numbers are written differently. -/
theorem decimal_injective {m n : Int} (h : decimal m = decimal n) : m = n := by
  cases m <;> cases n <;> simp only [decimal] at h
  · rw [natural_injective h]
  · exact absurd h (natural_ne_minus _ _)
  · exact absurd h.symm (natural_ne_minus _ _)
  · have := natural_injective ((String.append_right_inj _).1 h)
    grind

/-! ## Reading -/

theorem isDigit_of_mem_toDigits {n : Nat} {c : Char} (h : c ∈ Nat.toDigits 10 n) :
    isDigit c = true := by
  have hdigit := Nat.isDigit_of_mem_toDigits (by decide) (by decide) h
  simpa [isDigit, Char.isDigit, Char.le_def] using hdigit

theorem natural?_toDigits (n : Nat) : natural? (Nat.toDigits 10 n) = some n := by
  have hvalue : digitsValue (Nat.toDigits 10 n) = n := by
    have h := Nat.ofDigitChars_toDigits (b := 10) (n := n) (by decide) (by decide)
    rwa [Nat.ofDigitChars_eq_foldl] at h
  have hall : (Nat.toDigits 10 n).all isDigit = true :=
    List.all_eq_true.2 fun c hc => isDigit_of_mem_toDigits hc
  simp [natural?, Nat.toDigits_ne_nil, hall, hvalue]

/-- A numeral has digits and a sign. -/
theorem mem_decimal {n : Int} {c : Char} (h : c ∈ (decimal n).toList) : isDigit c = true ∨ c = '-' := by
  have hdigits : ∀ {m}, c ∈ (natural m).toList → isDigit c = true := fun hc => by
    rw [natural, String.toList_ofList] at hc
    exact isDigit_of_mem_toDigits hc
  cases n with
  | ofNat m => exact .inl (hdigits h)
  | negSucc m =>
    rw [decimal, String.toList_append, List.mem_append] at h
    rcases h with h | h
    · exact .inr (by simpa using h)
    · exact .inl (hdigits h)

/-- Characters that no numeral has. -/
theorem not_mem_decimal {c : Char} (hdigit : isDigit c = false) (hsign : c ≠ '-') (n : Int) :
    c ∉ (decimal n).toList := by
  intro h
  rcases mem_decimal h with h | h
  · rw [hdigit] at h
    cases h
  · exact hsign h

/-- The integer that a text denotes, of any size. -/
def integer? : List Char → Option Int
  | '-' :: ds => (natural? ds).map fun n => -(n : Int)
  | ds => (natural? ds).map fun n => (n : Int)

/-- An integer is read back from its text. -/
theorem integer?_decimal (n : Int) : integer? (decimal n).toList = some n := by
  cases n with
  | ofNat m =>
    rw [decimal, natural, String.toList_ofList]
    unfold integer?
    split
    · next heq => exact absurd (isDigit_of_mem_toDigits (heq ▸ List.mem_cons_self)) (by decide)
    · rw [natural?_toDigits]
      rfl
  | negSucc m =>
    have htext : (decimal (.negSucc m)).toList = '-' :: Nat.toDigits 10 (m + 1) := by
      simp [decimal, natural]
    rw [htext, integer?, natural?_toDigits]
    rfl

theorem isBlank_of_isDigit {c : Char} (h : isDigit c = true) : isBlank c = false := by
  simp only [isDigit, Bool.and_eq_true, decide_eq_true_eq, Char.le_def, UInt32.le_iff_toNat_le] at h
  change 48 ≤ c.toNat ∧ c.toNat ≤ 57 at h
  rw [← Bool.not_eq_true, isBlank, CodePoints.has_iff]
  rintro ⟨r, hr, hlow, hhigh⟩
  simp only [blanks, List.mem_cons, List.not_mem_nil, or_false] at hr
  rcases hr with rfl | rfl | rfl | rfl | rfl | rfl | rfl | rfl | rfl | rfl <;> simp only at hlow hhigh <;> omega

theorem isControl_of_isDigit {c : Char} (hc : isDigit c = true) : isControl c = false := by
  simp only [isDigit, Bool.and_eq_true, decide_eq_true_eq, Char.le_def, UInt32.le_iff_toNat_le] at hc
  change 48 ≤ c.toNat ∧ c.toNat ≤ 57 at hc
  simp only [isControl, Bool.or_eq_false_iff, Bool.and_eq_false_iff, decide_eq_false_iff_not]
  omega

/-- A text without blanks is not trimmed. -/
theorem trimBlanks_eq_self {text : String} (h : ∀ c ∈ text.toList, isBlank c = false) :
    trimBlanks text = text := by
  have hkeep : ∀ l : List Char, (∀ c ∈ l, isBlank c = false) → l.dropWhile isBlank = l := by
    intro l hl
    cases l with
    | nil => rfl
    | cons c l => rw [List.dropWhile_cons, hl c List.mem_cons_self]; rfl
  rw [trimBlanks, hkeep _ h, hkeep _ fun c hc => h c (List.mem_reverse.1 hc), List.reverse_reverse,
    String.ofList_toList]

theorem isBlank_of_mem_decimal {n : Int} {c : Char} (h : c ∈ (decimal n).toList) :
    isBlank c = false := by
  rcases mem_decimal h with h | rfl
  · exact isBlank_of_isDigit h
  · decide

theorem trimBlanks_decimal (n : Int) : trimBlanks (decimal n) = decimal n :=
  trimBlanks_eq_self fun _ => isBlank_of_mem_decimal

/-- A number is read back from its text if it is a word. -/
theorem trimmedWord?_decimal_eq (n : Int) : trimmedWord? (decimal n) = (some n).filter isWord := by
  rw [trimmedWord?, trimBlanks_decimal]
  cases n with
  | ofNat m =>
    have hsign : ∀ c ds, Nat.toDigits 10 m = c :: ds → isDigit c = true := fun c ds heq =>
      isDigit_of_mem_toDigits (heq ▸ List.mem_cons_self)
    rw [decimal, natural, String.toList_ofList]
    unfold word?
    split
    · next heq => exact absurd (hsign _ _ heq) (by decide)
    · next heq => exact absurd (hsign _ _ heq) (by decide)
    · rw [natural?_toDigits]
      rfl
  | negSucc m =>
    have htext : (decimal (.negSucc m)).toList = '-' :: Nat.toDigits 10 (m + 1) := by
      simp [decimal, natural]
    rw [htext]
    unfold word?
    simp only [natural?_toDigits]
    rfl

/-- A word is read back from its text. -/
theorem trimmedWord?_decimal {n : Int} (h : isWord n = true) : trimmedWord? (decimal n) = some n := by
  rw [trimmedWord?_decimal_eq, Option.filter_some_pos h]

end Provenance.Text
