/-!
# Cutting a text into pieces

A text is cut at each separator, so that there is one piece more than there are separators. Nothing
is lost: the pieces with separators between them are the text again (`intercalate_cut`).
-/

namespace Provenance.Text

/-- The pieces of a list of characters between separators, one more than there are separators. -/
def cut (separator : Char) : List Char → List (List Char)
  | [] => [[]]
  | c :: cs =>
    if c = separator then [] :: cut separator cs
    else
      match cut separator cs with
      | [] => [[c]]
      | piece :: pieces => (c :: piece) :: pieces

/-- The pieces of a text between separators. -/
def pieces (separator : Char) (text : String) : List String :=
  (cut separator text.toList).map String.ofList

/-- The lines of a text without their line feeds; the last line may lack its own. -/
def lines (text : String) : List String :=
  let all := pieces '\n' text
  if all.getLast? = some "" then all.dropLast else all

theorem cut_ne_nil (separator : Char) (cs : List Char) : cut separator cs ≠ [] := by
  cases cs with
  | nil => simp [cut]
  | cons c cs =>
    simp only [cut]
    split
    · simp
    · split <;> simp

/-- The pieces with separators between them are the text. -/
theorem intercalate_cut (separator : Char) (cs : List Char) :
    [separator].intercalate (cut separator cs) = cs := by
  induction cs with
  | nil => rfl
  | cons c cs ih =>
    obtain ⟨piece, pieces, h⟩ := List.exists_cons_of_ne_nil (cut_ne_nil separator cs)
    rw [h] at ih
    simp only [cut, h]
    split
    · next hc =>
      subst hc
      exact congrArg (c :: ·) ih
    · cases pieces with
      | nil => exact congrArg (c :: ·) ih
      | cons _ _ => exact congrArg (c :: ·) ih

variable {separator : Char} {piece : List Char}

/-- What stands in front of the first separator belongs to the first piece. -/
theorem cut_append_of_not_mem (h : separator ∉ piece) {k next : List Char} {pieces : List (List Char)}
    (hk : cut separator k = next :: pieces) : cut separator (piece ++ k) = (piece ++ next) :: pieces := by
  induction piece with
  | nil => exact hk
  | cons c piece ih =>
    rw [List.mem_cons, not_or] at h
    rw [List.cons_append, cut, if_neg (Ne.symm h.1), ih h.2]
    rfl

/-- A text without separators is one piece. -/
theorem cut_of_not_mem (h : separator ∉ piece) : cut separator piece = [piece] := by
  simpa using cut_append_of_not_mem h (show cut separator [] = [[]] from rfl)

/-- A piece ends at the first separator. -/
theorem cut_append (h : separator ∉ piece) (k : List Char) :
    cut separator (piece ++ separator :: k) = piece :: cut separator k := by
  have hk : cut separator (separator :: k) = [] :: cut separator k := by rw [cut, if_pos rfl]
  simpa using cut_append_of_not_mem h hk

/-- Lines that are written one after another, each with a line feed at its end, are read back. -/
theorem lines_join {ls : List String} (h : ∀ line ∈ ls, '\n' ∉ line.toList) :
    lines (String.join (ls.map (· ++ "\n"))) = ls := by
  have hcut : cut '\n' (String.join (ls.map (· ++ "\n"))).toList = ls.map String.toList ++ [[]] := by
    rw [String.toList_join, List.flatMap_map]
    induction ls with
    | nil => rfl
    | cons line ls ih =>
      rw [List.flatMap_cons, String.toList_append, List.append_assoc]
      have hrest := ih fun l hl => h l (List.mem_cons_of_mem line hl)
      exact (cut_append (h line List.mem_cons_self) _).trans (congrArg (line.toList :: ·) hrest)
  have hpieces : pieces '\n' (String.join (ls.map (· ++ "\n"))) = ls ++ [""] := by
    rw [pieces, hcut, List.map_append, List.map_map]
    exact congrArg (· ++ [""]) ((List.map_congr_left fun line _ => String.ofList_toList).trans ls.map_id)
  rw [lines, hpieces, List.getLast?_concat, if_pos rfl, List.dropLast_concat]

end Provenance.Text
