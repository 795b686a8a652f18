import Mathlib.Data.List.DropRight
import Mathlib.Data.String.Basic
import Provenance.Query.LineIndex

/-!
# Positions found by the index of lines

The index finds what counting finds. Its lines start one behind the other, so that halving finds the last line that
starts no further than a place; this line starts right behind the last line feed in front of the place, and the
characters since then are counted, or they are as many as their bytes.
-/

namespace Provenance.Query

open String (utf8Len)

/-- The characters behind the last line feed of a text. -/
def lastLine (cs : List Char) : List Char := cs.rtakeWhile (· != '\n')

/-- The position behind some characters, counted from the beginning of the text. -/
def Position.counted (before : List Char) : Position :=
  ⟨1 + before.count '\n', 1 + (lastLine before).length⟩

theorem lastLine_of_not_mem {cs : List Char} (h : '\n' ∉ cs) : lastLine cs = cs := by
  refine List.rtakeWhile_eq_self_iff.2 fun c hc => bne_iff_ne.2 ?_
  rintro rfl
  exact h hc

theorem lastLine_append_feed (line cs : List Char) : lastLine (line ++ '\n' :: cs) = lastLine cs := by
  induction cs using List.reverseRecOn with
  | nil => exact List.rtakeWhile_concat_neg _ _ _ (by decide)
  | append_singleton cs c ih =>
    rw [← List.cons_append, ← List.append_assoc, lastLine, lastLine, List.rtakeWhile_concat, List.rtakeWhile_concat,
      ← lastLine, ← lastLine, ih]

/-- Moving on character by character is counting. -/
theorem Position.afterAll_start (cs : List Char) : Position.start.afterAll cs = .counted cs := by
  induction cs using List.reverseRecOn with
  | nil => rfl
  | append_singleton cs c ih =>
    have hlast : Position.start.afterAll (cs ++ [c]) = (Position.start.afterAll cs).after c := by
      rw [Position.afterAll, List.foldl_append]
      rfl
    rw [hlast, ih, Position.after, Position.counted, Position.counted, lastLine, lastLine,
      List.rtakeWhile_concat, List.count_append, List.count_singleton]
    by_cases hc : c = '\n'
    · simp [hc, Nat.add_assoc]
    · simp [hc, Nat.add_assoc]

/-! ## Partition points -/

section Halving

variable {p : Nat → Bool} {k : Nat}

/-- Halving ends at the last place where `p` holds, or at the first place of all. -/
theorem narrow_spec (hp : ∀ i, p i = true ↔ i < k) {base size : Nat} (hbase : base < k ∨ base = 0)
    (hk : k ≤ base + size) :
    (narrow p base size < k ∨ narrow p base size = 0) ∧ k ≤ narrow p base size + 1 := by
  fun_induction narrow p base size with
  | case1 base size hsize => exact ⟨hbase, by omega⟩
  | case2 base size hsize half ih =>
    have hhalf : 0 < half ∧ half < size := by omega
    refine ih ?_ ?_
    · split
      · next hholds => exact .inl ((hp _).1 hholds)
      · exact hbase
    · split
      · omega
      · next hfails =>
        have := mt (hp _).2 hfails
        omega

/-- Of elements that satisfy `p` and of others behind them, the partition point counts the former. -/
theorem partitionPoint_append {α : Type} {p : α → Bool} {xs ys : List α} (hxs : ∀ x ∈ xs, p x = true)
    (hys : ∀ y ∈ ys, p y = false) : partitionPoint p (xs ++ ys).toArray = xs.length := by
  have hholds : ∀ i, (xs ++ ys).toArray[i]?.any p = true ↔ i < xs.length := by
    intro i
    rw [List.getElem?_toArray]
    obtain hi | hi := Nat.lt_or_ge i xs.length
    · rw [List.getElem?_append_left hi, List.getElem?_eq_getElem hi]
      exact iff_of_true (hxs _ (List.getElem_mem hi)) hi
    · rw [List.getElem?_append_right hi, Option.any_eq_true]
      refine iff_of_false ?_ (Nat.not_lt.2 hi)
      rintro ⟨y, hy, hpy⟩
      rw [hys y (List.mem_of_getElem? hy)] at hpy
      cases hpy
  have hsize : xs.length ≤ 0 + (xs ++ ys).toArray.size := by simp
  obtain ⟨hlast, hlength⟩ := narrow_spec hholds (.inr rfl) hsize
  unfold partitionPoint
  dsimp only
  split
  · next h =>
    have := (hholds _).1 h
    omega
  · next h =>
    have := mt (hholds _).2 h
    omega

end Halving

/-! ## Lines -/

theorem start_le_of_mem_linesFrom {start : Nat} {texts : List String} {l : Line} (h : l ∈ linesFrom start texts) :
    start ≤ l.start := by
  induction texts generalizing start with
  | nil => cases h
  | cons text texts ih =>
    obtain rfl | h := List.mem_cons.1 h
    · exact Nat.le_refl _
    · have := ih h
      omega

/-- The lines of a text, given the number of bytes in front of it. -/
def lineTable (start : Nat) (cs : List Char) : List Line :=
  linesFrom start ((Text.cut '\n' cs).map String.ofList)

/-- The lines around a place that has the characters `before` in front of it, from `start` on: those above the
place, the line on which it is, and those below. -/
structure Located (start : Nat) (before : List Char) (above : List Line) (line : Line) (below : List Line) :
    Prop where
  length_above : above.length = before.count '\n'
  above_le : ∀ l ∈ above, l.start ≤ start + utf8Len before
  start_line : line.start + utf8Len (lastLine before) = start + utf8Len before
  ascii_line : line.ascii = true → ∀ c ∈ lastLine before, c.toNat < 0x80
  lt_below : ∀ l ∈ below, start + utf8Len before < l.start

/-- The first line of a text. -/
theorem Located.first (start : Nat) {before : List Char} (h : '\n' ∉ before) (after : List Char) :
    ∃ line below, lineTable start (before ++ after) = line :: below ∧ Located start before [] line below := by
  obtain ⟨next, pieces, hnext⟩ := List.exists_cons_of_ne_nil (Text.cut_ne_nil '\n' after)
  have hlast := lastLine_of_not_mem h
  refine ⟨_, _, by rw [lineTable, Text.cut_append_of_not_mem h hnext, List.map_cons, linesFrom], ?_⟩
  exact {
    length_above := (List.count_eq_zero_of_not_mem h).symm
    above_le := nofun
    start_line := by rw [hlast]
    ascii_line := fun hascii c hc => by
      rw [hlast] at hc
      rw [String.toList_ofList, List.all_eq_true] at hascii
      exact of_decide_eq_true (hascii c (List.mem_append_left next hc))
    lt_below := fun l hl => by
      have := start_le_of_mem_linesFrom hl
      rw [String.utf8ByteSize_ofList, String.utf8Len_append] at this
      omega }

/-- The lines behind the first one. -/
theorem Located.later {start : Nat} {text before : List Char} (htext : '\n' ∉ text) {above below : List Line}
    {line : Line} (h : Located (start + utf8Len text + 1) before above line below) (ascii : Bool) :
    Located start (text ++ '\n' :: before) (⟨start, ascii⟩ :: above) line below := by
  have hsize : start + utf8Len (text ++ '\n' :: before) = start + utf8Len text + 1 + utf8Len before := by
    rw [String.utf8Len_append, String.utf8Len_cons, show '\n'.utf8Size = 1 from rfl]
    omega
  exact {
    length_above := by
      rw [List.length_cons, h.length_above, List.count_append, List.count_eq_zero_of_not_mem htext,
        List.count_cons_self, Nat.zero_add]
    above_le := List.forall_mem_cons.2 ⟨Nat.le_add_right _ _, by rw [hsize]; exact h.above_le⟩
    start_line := by rw [lastLine_append_feed, hsize, h.start_line]
    ascii_line := by rw [lastLine_append_feed]; exact h.ascii_line
    lt_below := by rw [hsize]; exact h.lt_below }

theorem lineTable_append (start : Nat) {text : List Char} (h : '\n' ∉ text) (cs : List Char) :
    lineTable start (text ++ '\n' :: cs)
      = ⟨start, text.all (·.toNat < 0x80)⟩ :: lineTable (start + utf8Len text + 1) cs := by
  rw [lineTable, Text.cut_append h, List.map_cons, linesFrom, String.utf8ByteSize_ofList, String.toList_ofList,
    ← lineTable]

/-- Each place of a text is on a line of its table. -/
theorem lineTable_located (start : Nat) (before after : List Char) :
    ∃ above line below, lineTable start (before ++ after) = above ++ line :: below ∧
      Located start before above line below := by
  by_cases h : '\n' ∈ before
  · obtain ⟨text, later, hbefore, htext⟩ := List.eq_append_cons_of_mem h
    obtain ⟨above, line, below, hlines, hlocated⟩ := lineTable_located (start + utf8Len text + 1) later after
    rw [hbefore]
    refine ⟨_, line, below, ?_, hlocated.later htext (text.all (·.toNat < 0x80))⟩
    rw [List.append_assoc, List.cons_append, lineTable_append start htext, hlines, List.cons_append]
  · obtain ⟨line, below, hlines, hlocated⟩ := Located.first start h after
    exact ⟨[], line, below, hlines, hlocated⟩
termination_by before.length
decreasing_by
  rw [hbefore, List.length_append, List.length_cons]
  omega

/-! ## Columns -/

theorem utf8Len_of_ascii {cs : List Char} (h : ∀ c ∈ cs, c.toNat < 0x80) : utf8Len cs = cs.length := by
  induction cs with
  | nil => rfl
  | cons c cs ih =>
    obtain ⟨hc, hcs⟩ := List.forall_mem_cons.1 h
    have hsize : c.utf8Size = 1 := Char.utf8Size_eq_one_iff.2 (UInt32.le_iff_toNat_le.2 (Nat.le_of_lt_succ hc))
    rw [String.utf8Len_cons, ih hcs, hsize, List.length_cons]

theorem isValid_utf8Len (cs cs' : List Char) :
    String.Pos.Raw.isValid (String.ofList (cs ++ cs')) ⟨utf8Len cs⟩ = true := by
  refine String.Pos.Raw.isValid_eq_true_iff.2 (String.Pos.Raw.isValid_iff_exists_append.2 ?_)
  exact ⟨String.ofList cs, String.ofList cs', String.ofList_append, (String.rawEndPos_ofList cs).symm⟩

/-- The part of a text between two places of it. -/
theorem slice?_utf8Len (cs part cs' : List Char) :
    slice? (String.ofList (cs ++ part ++ cs')) (utf8Len cs) (utf8Len cs + utf8Len part)
      = some (String.ofList part) := by
  have hstart := isValid_utf8Len cs (part ++ cs')
  have hstop := isValid_utf8Len (cs ++ part) cs'
  rw [← List.append_assoc] at hstart
  rw [String.utf8Len_append] at hstop
  rw [slice?, hstart, hstop, String.extract_of_valid]
  simp

/-- The index finds the position that counting finds. -/
theorem LineIndex.position_ofText {text : String} {before after : List Char} (h : text.toList = before ++ after) :
    (LineIndex.ofText text).position after = .counted before := by
  obtain rfl : text = String.ofList (before ++ after) := by rw [← h, String.ofList_toList]
  obtain ⟨above, line, below, hlines, hlocated⟩ := lineTable_located 0 before after
  have hindex : LineIndex.ofText (String.ofList (before ++ after))
      = ⟨String.ofList (before ++ after), (above ++ line :: below).toArray⟩ := by
    rw [LineIndex.ofText, Text.pieces, String.toList_ofList, ← hlines, lineTable]
  have hoffset : (String.ofList (before ++ after)).utf8ByteSize - (String.ofList after).utf8ByteSize
      = utf8Len before := by
    rw [String.utf8ByteSize_ofList, String.utf8ByteSize_ofList, String.utf8Len_append, Nat.add_sub_cancel]
  have hstart := hlocated.start_line
  rw [Nat.zero_add] at hstart
  -- the lines above and the line itself start no further than the place, the lines below start behind it
  have hpoint : partitionPoint (fun l : Line => decide (l.start ≤ utf8Len before))
      (above ++ line :: below).toArray = above.length + 1 := by
    have hsplit : above ++ line :: below = (above ++ [line]) ++ below := by simp
    rw [hsplit, partitionPoint_append, List.length_append, List.length_singleton]
    · intro l hl
      obtain hl | hl := List.mem_append.1 hl
      · simpa using hlocated.above_le l hl
      · rw [List.mem_singleton.1 hl]
        exact decide_eq_true (by omega)
    · intro l hl
      have := hlocated.lt_below l hl
      exact decide_eq_false (by omega)
  have hcolumn : (if line.ascii then utf8Len before - line.start
      else (slice? (String.ofList (before ++ after)) line.start (utf8Len before)).elim 0 String.length)
        = (lastLine before).length := by
    split
    · next hascii =>
      rw [← hstart, Nat.add_sub_cancel_left, utf8Len_of_ascii (hlocated.ascii_line hascii)]
    · obtain ⟨front, hfront⟩ : lastLine before <:+ before := List.rtakeWhile_suffix _ _
      have hslice := slice?_utf8Len front (lastLine before) after
      have hsize := String.utf8Len_append front (lastLine before)
      rw [hfront] at hslice hsize
      have hfrontSize : utf8Len front = line.start := by omega
      rw [hfrontSize, hstart] at hslice
      rw [hslice, Option.elim_some, String.length_ofList]
  rw [hindex, LineIndex.position, hoffset, hpoint, Nat.add_sub_cancel, List.getElem?_toArray,
    List.getElem?_append_right (Nat.le_refl _), Nat.sub_self, List.getElem?_cons_zero]
  dsimp only
  rw [hcolumn, hlocated.length_above, Position.counted, Nat.add_comm, Nat.add_comm 1 (List.length _)]

end Provenance.Query
