import Mathlib
import Provenance.Answer
import Provenance.Text.Pieces
import Provenance.Proofs.Numerals

/-!
# Reading a plain text

A reader of the plain text of a graph goes by its lines: the first words of a line say which vertex or edge it is
about. The values of annotations are quoted and stay on the line of their element, but a key is written as it is.
So the text has one line for each element exactly when no key holds a line feed (`text_lists`), and then all elements
are read back from it.
-/

namespace Provenance

namespace Text

theorem eq_digitChar_of_mem_toDigits {b n : Nat} {c : Char} (hb : 1 < b) (h : c ∈ Nat.toDigits b n) :
    ∃ d, c = Nat.digitChar d := by
  induction n using Nat.strongRecOn with
  | ind n ih =>
    rw [Nat.toDigits_eq_if hb] at h
    split at h
    · exact ⟨n, List.mem_singleton.1 h⟩
    · next hn =>
      rcases List.mem_append.1 h with h | h
      · exact ih (n / b) (Nat.div_lt_self (by omega) hb) h
      · exact ⟨n % b, List.mem_singleton.1 h⟩

theorem feed_not_mem_quotedChar (c : Char) : '\n' ∉ (quotedChar c).toList := by
  have hcode : '\n' ∉ ("\\u\x7b" ++ hexadecimal c.toNat ++ "\x7d").toList := by
    rw [String.toList_append, String.toList_append, List.mem_append, List.mem_append]
    rintro ((h | h) | h)
    · exact absurd h (by decide)
    · rw [hexadecimal, String.toList_ofList] at h
      obtain ⟨d, hd⟩ := eq_digitChar_of_mem_toDigits (b := 16) (by decide) h
      exact Nat.digitChar_ne '\n' (by decide) hd.symm
    · exact absurd h (by decide)
  unfold quotedChar
  by_cases hfeed : c = '\n'
  · subst hfeed
    decide
  rw [if_neg hfeed]
  repeat' split
  all_goals first | decide | exact hcode | simpa [Char.toString] using Ne.symm hfeed

/-- A quoted text goes on in no other line. -/
theorem feed_not_mem_quoted (text : String) : '\n' ∉ (quoted text).toList := by
  rw [quoted, String.toList_append, String.toList_append, String.toList_join, List.flatMap_map, List.mem_append,
    List.mem_append, List.mem_flatMap]
  rintro ((h | ⟨c, -, h⟩) | h)
  · exact absurd h (by decide)
  · exact feed_not_mem_quotedChar c h
  · exact absurd h (by decide)

/-- The number of line feeds in a text. -/
def feeds (text : String) : Nat := text.toList.count '\n'

theorem feeds_append (s t : String) : feeds (s ++ t) = feeds s + feeds t := by
  rw [feeds, String.toList_append, List.count_append]
  rfl

theorem feeds_eq_zero {text : String} : feeds text = 0 ↔ '\n' ∉ text.toList := List.count_eq_zero

theorem feeds_join (texts : List String) : feeds (String.join texts) = (texts.map feeds).sum := by
  rw [feeds, String.toList_join, List.count_flatMap]
  rfl

/-- Items with commas between them have only their own line feeds. -/
theorem feeds_commas (items : List String) : feeds (", ".intercalate items) = (items.map feeds).sum := by
  induction items with
  | nil => rfl
  | cons item items ih =>
    cases items with
    | nil => simp
    | cons next items =>
      rw [String.intercalate_cons_of_ne_nil (List.cons_ne_nil next items), feeds_append, feeds_append, ih]
      rfl

end Text

namespace ExportedGraph

/-! ## Elements -/

/-- What tells an element of a graph from others. -/
inductive Element where
  | vertex (id : Int)
  | edge (id src dst : Int)
  deriving DecidableEq, Repr, Inhabited

namespace Element

/-- How the line of an element starts. -/
def heading : Element → String
  | vertex id => "vertex " ++ Text.decimal id
  | edge id src dst => "edge " ++ Text.decimal id ++ " " ++ Text.decimal src ++ " -> " ++ Text.decimal dst

/-- The element that a line is about, by its first words. -/
def read? (line : String) : Option Element :=
  match Text.pieces ' ' line with
  | "vertex" :: id :: _ => (Text.integer? id.toList).map vertex
  | "edge" :: id :: src :: "->" :: dst :: _ => do
    let id ← Text.integer? id.toList
    let src ← Text.integer? src.toList
    let dst ← Text.integer? dst.toList
    pure (edge id src dst)
  | _ => none

end Element

/-- The elements of a graph with their annotations, as they are written. -/
def entries (g : ExportedGraph) : List (Element × Annotations) :=
  g.vertices.map (fun v => (.vertex v.id, v.annotations))
    ++ g.edges.map (fun e => (.edge e.id e.src e.dst, e.annotations))

/-- The elements of a graph: its vertices and then its edges. -/
def elements (g : ExportedGraph) : List Element := g.entries.map Prod.fst

/-- The keys of all annotations of a graph. -/
def keys (g : ExportedGraph) : List String := g.entries.flatMap fun (_, annotations) => annotations.map Prod.fst

/-- The text has one line for each of the elements, which starts with the heading of the element and is read as it. -/
def Lists (text : String) (es : List Element) : Prop :=
  ∃ ls : List String, text = String.join (ls.map (· ++ "\n")) ∧ (∀ line ∈ ls, '\n' ∉ line.toList) ∧
    List.Forall₂ (fun line e => e.heading.toList <+: line.toList ∧ Element.read? line = some e) ls es

/-- The line of an element without its line feed. -/
def entryLine : Element × Annotations → String
  | (e, annotations) => e.heading ++ annotationsText annotations

theorem text_eq (g : ExportedGraph) : g.text = String.join ((g.entries.map entryLine).map (· ++ "\n")) := by
  have hvertex : ∀ v, vertexLine v = entryLine (.vertex v.id, v.annotations) ++ "\n" := fun _ => rfl
  have hedge : ∀ e, edgeLine e = entryLine (.edge e.id e.src e.dst, e.annotations) ++ "\n" := fun _ => rfl
  rw [text, entries, List.map_append, List.map_append, List.map_map, List.map_map, List.map_map, List.map_map,
    String.join_append, funext hvertex, funext hedge]
  rfl

/-! ## Lines -/

theorem feeds_decimal (n : Int) : Text.feeds (Text.decimal n) = 0 :=
  Text.feeds_eq_zero.2 (Text.not_mem_decimal (by decide) (by decide) n)

theorem feeds_heading (e : Element) : Text.feeds e.heading = 0 := by
  cases e <;> simp only [Element.heading, Text.feeds_append, feeds_decimal] <;> rfl

/-- Annotations have the line feeds of their keys. -/
theorem feeds_annotationsText (list : Annotations) :
    Text.feeds (annotationsText list) = (list.map fun a => Text.feeds a.1).sum := by
  have hitem : (Text.feeds ∘ fun (k, v) => k ++ "=" ++ Text.quoted v) = fun a => Text.feeds a.1 := funext fun a => by
    rw [Function.comp_apply, Text.feeds_append, Text.feeds_append,
      Text.feeds_eq_zero.2 (Text.feed_not_mem_quoted a.2)]
    rfl
  rw [annotationsText]
  split
  · next h => rw [List.isEmpty_iff.1 h]; rfl
  · rw [Text.feeds_append, Text.feeds_append, Text.feeds_commas, List.map_map, hitem]
    exact Nat.zero_add _

theorem feeds_entryLine (entry : Element × Annotations) :
    Text.feeds (entryLine entry) = (entry.2.map fun a => Text.feeds a.1).sum := by
  rw [entryLine, Text.feeds_append, feeds_heading, feeds_annotationsText, Nat.zero_add]

/-- The text of a graph has a line feed for each element, and those of the keys. -/
theorem feeds_text (g : ExportedGraph) :
    Text.feeds g.text = g.elements.length + (g.keys.map Text.feeds).sum := by
  rw [text_eq, Text.feeds_join, elements, keys, List.length_map]
  induction g.entries with
  | nil => rfl
  | cons entry entries ih =>
    have hline : Text.feeds (entryLine entry ++ "\n") = (entry.2.map fun a => Text.feeds a.1).sum + 1 := by
      rw [Text.feeds_append, feeds_entryLine]
      rfl
    simp only [List.map_cons, List.sum_cons, List.flatMap_cons, List.map_append, List.sum_append, List.length_cons,
      List.map_map, hline] at ih ⊢
    rw [ih]
    simp only [Function.comp_def]
    omega

theorem Lists.feeds {text : String} {es : List Element} (h : Lists text es) : Text.feeds text = es.length := by
  obtain ⟨ls, rfl, hline, hes⟩ := h
  rw [← hes.length_eq, Text.feeds_join]
  clear hes
  induction ls with
  | nil => rfl
  | cons line ls ih =>
    rw [List.map_cons, List.map_cons, List.sum_cons, ih fun l hl => hline l (List.mem_cons_of_mem line hl),
      Text.feeds_append, Text.feeds_eq_zero.2 (hline line List.mem_cons_self), List.length_cons]
    exact Nat.add_comm _ _

/-! ## Words -/

/-- The word in front of annotations ends there. -/
theorem cut_annotationsText {word : List Char} (h : ' ' ∉ word) (annotations : Annotations) :
    ∃ others, Text.cut ' ' (word ++ (annotationsText annotations).toList) = word :: others := by
  rw [annotationsText]
  split
  · exact ⟨[], (congrArg _ (List.append_nil word)).trans (Text.cut_of_not_mem h)⟩
  · rw [String.append_assoc, String.toList_append]
    exact ⟨_, Text.cut_append h _⟩

theorem read?_entryLine (entry : Element × Annotations) : Element.read? (entryLine entry) = some entry.1 := by
  have hspace : ∀ n, ' ' ∉ (Text.decimal n).toList := Text.not_mem_decimal (by decide) (by decide)
  obtain ⟨e, annotations⟩ := entry
  cases e with
  | vertex id =>
    obtain ⟨others, hothers⟩ := cut_annotationsText (hspace id) annotations
    have hcut : Text.cut ' ' (entryLine (.vertex id, annotations)).toList
        = "vertex".toList :: (Text.decimal id).toList :: others := by
      have htext : (entryLine (.vertex id, annotations)).toList
          = "vertex".toList ++ ' ' :: ((Text.decimal id).toList ++ (annotationsText annotations).toList) := by
        simp [entryLine, Element.heading]
      rw [htext, Text.cut_append (by decide), hothers]
    rw [Element.read?, Text.pieces, hcut]
    simp [Text.integer?_decimal]
  | edge id src dst =>
    obtain ⟨others, hothers⟩ := cut_annotationsText (hspace dst) annotations
    have hcut : Text.cut ' ' (entryLine (.edge id src dst, annotations)).toList
        = "edge".toList :: (Text.decimal id).toList :: (Text.decimal src).toList :: "->".toList
            :: (Text.decimal dst).toList :: others := by
      have htext : (entryLine (.edge id src dst, annotations)).toList
          = "edge".toList ++ ' ' :: ((Text.decimal id).toList ++ ' ' :: ((Text.decimal src).toList
              ++ ' ' :: ("->".toList ++ ' ' :: ((Text.decimal dst).toList
                ++ (annotationsText annotations).toList)))) := by
        simp [entryLine, Element.heading]
      rw [htext, Text.cut_append (by decide), Text.cut_append (hspace id), Text.cut_append (hspace src),
        Text.cut_append (by decide), hothers]
    rw [Element.read?, Text.pieces, hcut]
    simp [Text.integer?_decimal]

/-! ## Graphs -/

theorem lists_of_keys {g : ExportedGraph} (h : ∀ key ∈ g.keys, '\n' ∉ key.toList) : Lists g.text g.elements := by
  refine ⟨g.entries.map entryLine, text_eq g, fun line hline => ?_, ?_⟩
  · obtain ⟨entry, hentry, rfl⟩ := List.mem_map.1 hline
    rw [← Text.feeds_eq_zero, feeds_entryLine, List.sum_eq_zero_iff_forall_eq_nat]
    intro n hn
    obtain ⟨a, ha, rfl⟩ := List.mem_map.1 hn
    exact Text.feeds_eq_zero.2 (h a.1 (List.mem_flatMap.2 ⟨entry, hentry, List.mem_map_of_mem ha⟩))
  · rw [elements, List.forall₂_map_left_iff, List.forall₂_map_right_iff, List.forall₂_same]
    intro entry _
    exact ⟨by rw [entryLine, String.toList_append]; exact List.prefix_append .., read?_entryLine entry⟩

theorem Lists.read {text : String} {es : List Element} (h : Lists text es) :
    (Text.lines text).map Element.read? = es.map some := by
  obtain ⟨ls, rfl, hline, hes⟩ := h
  rw [Text.lines_join hline]
  clear hline
  induction hes with
  | nil => rfl
  | cons h _ ih => rw [List.map_cons, List.map_cons, h.2, ih]

/-- The plain text of a graph has one line for each element, in their order, exactly when no key of an annotation
holds a line feed. The values may hold anything. Then the elements are read back from the lines. -/
theorem text_lists (g : ExportedGraph) :
    (Lists g.text g.elements ↔ ∀ key ∈ g.keys, '\n' ∉ key.toList) ∧
    ((∀ key ∈ g.keys, '\n' ∉ key.toList) → (Text.lines g.text).map Element.read? = g.elements.map some) := by
  refine ⟨⟨fun h key hkey => ?_, lists_of_keys⟩, fun h => (lists_of_keys h).read⟩
  have hsum : (g.keys.map Text.feeds).sum = 0 := by
    have hcount := h.feeds
    rw [feeds_text] at hcount
    omega
  exact Text.feeds_eq_zero.1 (List.sum_eq_zero_iff_forall_eq_nat.1 hsum _ (List.mem_map_of_mem hkey))

/-- Annotations that look like elements. -/
def imitating : ExportedGraph where
  vertices := [⟨1, [("a", "\nvertex 2"), ("b \x7b=\"\\", "\x7d\nedge 3 1 -> 1")]⟩]
  edges := [⟨7, 1, -2, [(" -> 9", "")]⟩]

theorem text_lists_imitating :
    Lists imitating.text [.vertex 1, .edge 7 1 (-2)] ∧
    (Text.lines imitating.text).map Element.read? = [some (.vertex 1), some (.edge 7 1 (-2))] :=
  have hkeys : ∀ key ∈ imitating.keys, '\n' ∉ key.toList := by decide +kernel
  ⟨(text_lists imitating).1.2 hkeys, (text_lists imitating).2 hkeys⟩

/-- A key with a line feed: one vertex has the text of two. -/
theorem text_imitated :
    text ⟨[⟨1, [("a=\"\"\x7d\nvertex 2 \x7bb", "")]⟩], []⟩ = text ⟨[⟨1, [("a", "")]⟩, ⟨2, [("b", "")]⟩], []⟩ ∧
    elements ⟨[⟨1, [("a=\"\"\x7d\nvertex 2 \x7bb", "")]⟩], []⟩
      ≠ elements ⟨[⟨1, [("a", "")]⟩, ⟨2, [("b", "")]⟩], []⟩ := by
  decide +kernel

end ExportedGraph

end Provenance
