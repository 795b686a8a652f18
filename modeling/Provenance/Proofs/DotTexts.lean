import Provenance.Answer.Dot
import Provenance.Proofs.Numerals

/-!
# Reading a DOT document

A reader of DOT documents, and what it reads in the document of a graph. Labels hold the annotations of the elements,
so any text may stand between their quotes.

`Spells` says that a text between quotes neither ends them nor disturbs what follows, and what it stands for. It is
closed under concatenation, so a label is followed through its pieces, down to the single character.
-/

namespace Provenance

/-! ## Documents -/

namespace Dot

/-- A piece of a document. Blanks only keep pieces apart, and the end of a line is one. -/
inductive Token where
  | word (text : List Char)
  /-- What stands between two quotes, as it is written. -/
  | quoted (body : List Char)
  | mark (c : Char)
  | lineFeed
  /-- A quote that nothing closes. -/
  | unclosed
  deriving DecidableEq, Repr, Inhabited

/-- Where a reader of a document stands. What it has read of a word or of a quoted text is kept in reverse. -/
inductive Region where
  | code (word : List Char)
  | quoted (body : List Char)
  /-- Behind a backslash in quotes. -/
  | escape (body : List Char)

def isWordChar (c : Char) : Bool := c.isAlphanum || c == '_'

/-- The word that ends here, if there is one, and the tokens behind it. -/
def ending (word : List Char) (ts : List Token) : List Token :=
  if word.isEmpty then ts else .word word.reverse :: ts

/-- The tokens of a document that is read on from the given region. A quoted text goes on to the first quote that
does not stand behind a backslash; the backslash takes the character behind it along, be it a backslash too. -/
def tokensFrom : Region → List Char → List Token
  | .code word, [] => ending word []
  | .quoted _, [] => [.unclosed]
  | .escape _, [] => [.unclosed]
  | .code word, c :: r =>
    if c = '\x22' then ending word (tokensFrom (.quoted []) r)
    else if isWordChar c then tokensFrom (.code (c :: word)) r
    else if c = '\n' then ending word (.lineFeed :: tokensFrom (.code []) r)
    else if Text.isBlank c then ending word (tokensFrom (.code []) r)
    else ending word (.mark c :: tokensFrom (.code []) r)
  | .quoted body, c :: r =>
    if c = '\x22' then .quoted body.reverse :: tokensFrom (.code []) r
    else if c = '\\' then tokensFrom (.escape body) r
    else tokensFrom (.quoted (c :: body)) r
  | .escape body, c :: r => tokensFrom (.quoted (c :: '\\' :: body)) r

def tokens (text : String) : List Token := tokensFrom (.code []) text.toList

/-- A quoted text without its escapes: a backslash and an `n` are a line feed, and before any other character a
backslash says that the character stands for itself. -/
def undone : List Char → List Char
  | [] => []
  | ['\\'] => ['\\']
  | '\\' :: c :: r => (if c = 'n' then '\n' else c) :: undone r
  | c :: r => c :: undone r

/-- What a line of a document says. -/
inductive Line where
  | opening (name : String)
  | node (id : Int) (label : String)
  | edge (src dst : Int) (label : String)
  | closing
  deriving DecidableEq, Repr, Inhabited

def Line.ofTokens? : List Token → Option Line
  | [.word keyword, .word name, .mark '\x7b'] =>
    if keyword = "digraph".toList then some (.opening (String.ofList name)) else none
  | [.quoted id, .mark '[', .word field, .mark '=', .quoted label, .mark ']', .mark ';'] =>
    if field = "label".toList then
      (Text.integer? (undone id)).map fun id => .node id (String.ofList (undone label))
    else none
  | [.quoted src, .mark '-', .mark '>', .quoted dst, .mark '[', .word field, .mark '=', .quoted label, .mark ']',
      .mark ';'] =>
    if field = "label".toList then do
      let src ← Text.integer? (undone src)
      let dst ← Text.integer? (undone dst)
      pure (.edge src dst (String.ofList (undone label)))
    else none
  | [.mark '\x7d'] => some .closing
  | _ => none

/-- The lines of a document; the tokens read of the first one are kept in reverse. The last line is ended too. -/
def linesFrom? (line : List Token) : List Token → Option (List Line)
  | [] => if line.isEmpty then some [] else none
  | .lineFeed :: ts => do
    let first ← Line.ofTokens? line.reverse
    let others ← linesFrom? [] ts
    pure (first :: others)
  | t :: ts => linesFrom? (t :: line) ts

/-- The lines of a document, each of which has a statement of its own. -/
def lines? (text : String) : Option (List Line) := linesFrom? [] (tokens text)

/-! ## Quoted texts -/

variable {cs ds cs' ds' k : List Char}

/-- Between quotes, `cs` stands for `ds`: it neither ends the quoted text nor changes how what follows is read. -/
structure Spells (cs ds : List Char) : Prop where
  passed : ∀ body k, tokensFrom (.quoted body) (cs ++ k) = tokensFrom (.quoted (cs.reverse ++ body)) k
  undone : ∀ k, undone (cs ++ k) = ds ++ undone k

namespace Spells

theorem nil : Spells [] [] := ⟨fun _ _ => rfl, fun _ => rfl⟩

theorem append (h : Spells cs ds) (h' : Spells cs' ds') : Spells (cs ++ cs') (ds ++ ds') where
  passed body k := by
    rw [List.append_assoc, h.passed, h'.passed, List.reverse_append, List.append_assoc]
  undone k := by
    rw [List.append_assoc, h.undone, h'.undone, List.append_assoc]

/-- A character that is no quote and no backslash stands for itself. -/
theorem char {c : Char} (hquote : c ≠ '\x22') (hslash : c ≠ '\\') : Spells [c] [c] where
  passed body k := by
    rw [List.singleton_append, tokensFrom, if_neg hquote, if_neg hslash]
    rfl
  undone k := by
    rw [List.singleton_append, List.singleton_append, Dot.undone]
    · rintro rfl
      exact absurd rfl hslash
    · intro d r hd
      exact absurd hd hslash

/-- A character behind a backslash. -/
theorem escape (c : Char) : Spells ['\\', c] [if c = 'n' then '\n' else c] where
  passed _ _ := rfl
  undone _ := rfl

theorem flatMap {α : Type} {f g : α → List Char} (h : ∀ a, Spells (f a) (g a)) (as : List α) :
    Spells (as.flatMap f) (as.flatMap g) := by
  induction as with
  | nil => exact nil
  | cons a as ih => exact (h a).append ih

/-- A text without quotes and backslashes. -/
theorem verbatim (hquote : '\x22' ∉ cs) (hslash : '\\' ∉ cs) : Spells cs cs := by
  induction cs with
  | nil => exact nil
  | cons c cs ih =>
    rw [List.mem_cons, not_or] at hquote hslash
    exact (char (Ne.symm hquote.1) (Ne.symm hslash.1)).append (ih hquote.2 hslash.2)

theorem decimal (n : Int) : Spells (Text.decimal n).toList (Text.decimal n).toList :=
  verbatim (Text.not_mem_decimal (by decide) (by decide) n) (Text.not_mem_decimal (by decide) (by decide) n)

theorem undone_eq (h : Spells cs ds) : Dot.undone cs = ds := by
  have := h.undone []
  rwa [List.append_nil, Dot.undone, List.append_nil] at this

/-- A quoted text is read to its end. -/
theorem tokensFrom_quote (h : Spells cs ds) (k : List Char) :
    tokensFrom (.code []) ('\x22' :: (cs ++ '\x22' :: k)) = .quoted cs :: tokensFrom (.code []) k := by
  rw [tokensFrom, if_pos rfl, h.passed, tokensFrom, if_pos rfl, List.append_nil, List.reverse_reverse]
  rfl

end Spells

end Dot

/-! ## Graphs -/

namespace ExportedGraph

open Dot

/-- A text without its control characters, of which only line feeds are kept. -/
def visible (text : String) : String := String.ofList (text.toList.filter fun c => c == '\n' || !Text.isControl c)

/-- What the label of an element says: its id, and each annotation on a line of its own. -/
def shownLabel (id : Int) (annotations : Annotations) : String :=
  "id:" ++ Text.decimal id ++ String.join (annotations.map fun (k, v) => "\n" ++ visible k ++ ":" ++ visible v)

theorem spells_dotChar (c : Char) :
    Spells (dotChar c).toList (if c == '\n' || !Text.isControl c then [c] else []) := by
  unfold dotChar
  by_cases hquote : c = '\x22'
  · subst hquote
    exact .escape '\x22'
  by_cases hslash : c = '\\'
  · subst hslash
    exact .escape '\\'
  by_cases hfeed : c = '\n'
  · subst hfeed
    exact .escape 'n'
  rw [if_neg hquote, if_neg hslash, if_neg hfeed, beq_eq_false_iff_ne.2 hfeed, Bool.false_or]
  cases hcontrol : Text.isControl c with
  | true => exact .nil
  | false => rw [if_neg Bool.false_ne_true, Char.toString, String.toList_singleton]; exact .char hquote hslash

theorem spells_dotEscaped (text : String) : Spells (dotEscaped text).toList (visible text).toList := by
  have hshown : (visible text).toList
      = text.toList.flatMap fun c => if c == '\n' || !Text.isControl c then [c] else [] := by
    rw [visible, String.toList_ofList]
    induction text.toList with
    | nil => rfl
    | cons c cs ih => rw [List.filter_cons, List.flatMap_cons, ← ih]; split <;> rfl
  rw [dotEscaped, String.toList_join, List.flatMap_map, hshown]
  exact .flatMap spells_dotChar text.toList

theorem spells_dotLabel (id : Int) (annotations : Annotations) :
    Spells (dotLabel id annotations).toList (shownLabel id annotations).toList := by
  have hid : Spells "id:".toList "id:".toList := .verbatim (by decide) (by decide)
  have hcolon : Spells ":".toList ":".toList := .verbatim (by decide) (by decide)
  rw [dotLabel, shownLabel]
  simp only [String.toList_append, String.toList_join, List.flatMap_map]
  refine (hid.append (.decimal id)).append (.flatMap (fun a => ?_) annotations)
  exact (((Spells.escape 'n').append (spells_dotEscaped a.1)).append hcolon).append (spells_dotEscaped a.2)

theorem feed_not_mem_dotChar (c : Char) : '\n' ∉ (dotChar c).toList := by
  unfold dotChar
  by_cases hfeed : c = '\n'
  · subst hfeed
    decide
  rw [if_neg hfeed]
  split
  · decide
  split
  · decide
  split
  · exact List.not_mem_nil
  · simpa [Char.toString] using Ne.symm hfeed

theorem feed_not_mem_dotLabel (id : Int) (annotations : Annotations) :
    '\n' ∉ (dotLabel id annotations).toList := by
  have hescaped : ∀ text, '\n' ∉ (dotEscaped text).toList := fun text => by
    rw [dotEscaped, String.toList_join, List.flatMap_map, List.mem_flatMap]
    rintro ⟨c, -, hc⟩
    exact feed_not_mem_dotChar c hc
  rw [dotLabel]
  simp only [String.toList_append, String.toList_join, List.flatMap_map, List.mem_append, List.mem_flatMap]
  rintro ((h | h) | ⟨a, -, ((h | h) | h) | h⟩)
  · exact absurd h (by decide)
  · exact Text.not_mem_decimal (by decide) (by decide) id h
  · exact absurd h (by decide)
  · exact hescaped a.1 h
  · exact absurd h (by decide)
  · exact hescaped a.2 h

/-! ### Tokens of a graph -/

/-- The tokens of the first line. -/
def openingTokens : List Token := [.word "digraph".toList, .word "provql".toList, .mark '\x7b']

/-- The tokens of a label, behind what it is the label of. -/
def labelTokens (id : Int) (annotations : Annotations) : List Token :=
  [.mark '[', .word "label".toList, .mark '=', .quoted (dotLabel id annotations).toList, .mark ']', .mark ';']

def vertexTokens (v : ExportedVertex) : List Token :=
  .quoted (Text.decimal v.id).toList :: labelTokens v.id v.annotations

def edgeTokens (e : ExportedEdge) : List Token :=
  .quoted (Text.decimal e.src).toList :: .mark '-' :: .mark '>' :: .quoted (Text.decimal e.dst).toList
    :: labelTokens e.id e.annotations

theorem tokensFrom_opening (k : List Char) : tokensFrom (.code []) ("digraph provql \x7b\n".toList ++ k)
    = openingTokens ++ .lineFeed :: tokensFrom (.code []) k := rfl

theorem tokensFrom_indent (k : List Char) : tokensFrom (.code []) (' ' :: ' ' :: k) = tokensFrom (.code []) k := rfl

theorem tokensFrom_label (id : Int) (annotations : Annotations) (k : List Char) :
    tokensFrom (.code []) (" [label=".toList
        ++ '\x22' :: ((dotLabel id annotations).toList ++ '\x22' :: ("];\n".toList ++ k)))
      = labelTokens id annotations ++ .lineFeed :: tokensFrom (.code []) k := by
  have hstart : ∀ r, tokensFrom (.code []) (" [label=".toList ++ r)
      = [.mark '[', .word "label".toList, .mark '='] ++ tokensFrom (.code []) r := fun _ => rfl
  rw [hstart, (spells_dotLabel id annotations).tokensFrom_quote]
  rfl

theorem tokensFrom_vertex (v : ExportedVertex) (k : List Char) :
    tokensFrom (.code []) ((dotVertex v).toList ++ k)
      = (vertexTokens v ++ [.lineFeed]) ++ tokensFrom (.code []) k := by
  have htext : (dotVertex v).toList ++ k
      = ' ' :: ' ' :: '\x22' :: ((Text.decimal v.id).toList ++ '\x22' :: (" [label=".toList
          ++ '\x22' :: ((dotLabel v.id v.annotations).toList ++ '\x22' :: ("];\n".toList ++ k)))) := by
    simp [dotVertex]
  rw [htext, tokensFrom_indent, (Spells.decimal v.id).tokensFrom_quote, tokensFrom_label, List.append_assoc]
  rfl

theorem tokensFrom_edge (e : ExportedEdge) (k : List Char) :
    tokensFrom (.code []) ((dotEdge e).toList ++ k)
      = (edgeTokens e ++ [.lineFeed]) ++ tokensFrom (.code []) k := by
  have htext : (dotEdge e).toList ++ k
      = ' ' :: ' ' :: '\x22' :: ((Text.decimal e.src).toList ++ '\x22' :: (" -> ".toList
          ++ '\x22' :: ((Text.decimal e.dst).toList ++ '\x22' :: (" [label=".toList
            ++ '\x22' :: ((dotLabel e.id e.annotations).toList ++ '\x22' :: ("];\n".toList ++ k)))))) := by
    simp [dotEdge]
  have harrow : ∀ r, tokensFrom (.code []) (" -> ".toList ++ r)
      = [.mark '-', .mark '>'] ++ tokensFrom (.code []) r := fun _ => rfl
  rw [htext, tokensFrom_indent, (Spells.decimal e.src).tokensFrom_quote, harrow,
    (Spells.decimal e.dst).tokensFrom_quote, tokensFrom_label, List.append_assoc]
  rfl

/-- What is read piece by piece is read so as a whole. -/
theorem tokensFrom_flatMap {α : Type} {f : α → List Char} {g : α → List Token}
    (h : ∀ a k, tokensFrom (.code []) (f a ++ k) = g a ++ tokensFrom (.code []) k) (as : List α) (k : List Char) :
    tokensFrom (.code []) (as.flatMap f ++ k) = as.flatMap g ++ tokensFrom (.code []) k := by
  induction as with
  | nil => rfl
  | cons a as ih => rw [List.flatMap_cons, List.flatMap_cons, List.append_assoc, List.append_assoc, h, ih]

theorem tokens_dot (g : ExportedGraph) :
    tokens g.dot = openingTokens ++ .lineFeed :: (g.vertices.flatMap (fun v => vertexTokens v ++ [.lineFeed])
      ++ (g.edges.flatMap (fun e => edgeTokens e ++ [.lineFeed]) ++ [.mark '\x7d', .lineFeed])) := by
  have hend : tokensFrom (.code []) "\x7d\n".toList = [.mark '\x7d', .lineFeed] := rfl
  unfold tokens dot
  rw [String.toList_append, String.toList_append, String.toList_append, String.toList_join, String.toList_join,
    List.flatMap_map, List.flatMap_map, List.append_assoc, List.append_assoc, tokensFrom_opening,
    tokensFrom_flatMap tokensFrom_vertex, tokensFrom_flatMap tokensFrom_edge, hend]

/-! ### Lines of a graph -/

/-- What the line of a vertex says. -/
def vertexStatement (v : ExportedVertex) : Line := .node v.id (shownLabel v.id v.annotations)

/-- What the line of an edge says. -/
def edgeStatement (e : ExportedEdge) : Line := .edge e.src e.dst (shownLabel e.id e.annotations)

theorem integer?_undone (n : Int) : Text.integer? (undone (Text.decimal n).toList) = some n := by
  rw [(Spells.decimal n).undone_eq, Text.integer?_decimal]

theorem undone_dotLabel (id : Int) (annotations : Annotations) :
    String.ofList (undone (dotLabel id annotations).toList) = shownLabel id annotations := by
  rw [(spells_dotLabel id annotations).undone_eq, String.ofList_toList]

theorem ofTokens?_opening : Line.ofTokens? openingTokens = some (.opening "provql") := by decide +kernel

theorem ofTokens?_vertex (v : ExportedVertex) : Line.ofTokens? (vertexTokens v) = some (vertexStatement v) := by
  simp only [vertexTokens, labelTokens, Line.ofTokens?, if_true, integer?_undone, undone_dotLabel, Option.map_some,
    vertexStatement]

theorem ofTokens?_edge (e : ExportedEdge) : Line.ofTokens? (edgeTokens e) = some (edgeStatement e) := by
  simp only [edgeTokens, labelTokens, Line.ofTokens?, if_true, integer?_undone, undone_dotLabel,
    Option.bind_eq_bind, Option.bind_some, edgeStatement]
  rfl

/-- A line is read before what follows. -/
theorem linesFrom?_cons {line : List Token} {said : Line} (hfeed : .lineFeed ∉ line)
    (h : Line.ofTokens? line = some said) (ts : List Token) :
    linesFrom? [] (line ++ .lineFeed :: ts) = (linesFrom? [] ts).map (said :: ·) := by
  have hread : ∀ read, linesFrom? read (line ++ .lineFeed :: ts)
      = linesFrom? (line.reverse ++ read) (.lineFeed :: ts) := by
    clear h
    induction line with
    | nil => exact fun _ => rfl
    | cons t line ih =>
      intro read
      rw [List.mem_cons, not_or] at hfeed
      have hstep : linesFrom? read (t :: (line ++ .lineFeed :: ts))
          = linesFrom? (t :: read) (line ++ .lineFeed :: ts) := by
        cases t <;> first | rfl | exact absurd rfl hfeed.1
      rw [List.cons_append, hstep, ih hfeed.2, List.reverse_cons, List.append_assoc, List.singleton_append]
  rw [hread, linesFrom?, List.append_nil, List.reverse_reverse, h]
  cases linesFrom? [] ts <;> rfl

theorem linesFrom?_flatMap {α : Type} {f : α → List Token} {g : α → Line} (hfeed : ∀ a, .lineFeed ∉ f a)
    (h : ∀ a, Line.ofTokens? (f a) = some (g a)) (as : List α) (ts : List Token) :
    linesFrom? [] (as.flatMap (fun a => f a ++ [.lineFeed]) ++ ts) = (linesFrom? [] ts).map (as.map g ++ ·) := by
  induction as with
  | nil => exact Option.map_id'.symm
  | cons a as ih =>
    rw [List.flatMap_cons, List.append_assoc, List.append_assoc, List.singleton_append, linesFrom?_cons (hfeed a) (h a),
      ih, Option.map_map]
    rfl

/-- The DOT document of a graph is read as its first line, one line for each vertex and then one for each edge, in
their order, and the closing brace. No quoted text goes on in another line. -/
theorem dot_lines (g : ExportedGraph) :
    lines? g.dot = some (.opening "provql" :: (g.vertices.map vertexStatement ++ (g.edges.map edgeStatement
      ++ [.closing]))) ∧
    ∀ body, .quoted body ∈ tokens g.dot → '\n' ∉ body := by
  constructor
  · rw [lines?, tokens_dot, linesFrom?_cons (by decide +kernel) ofTokens?_opening,
      linesFrom?_flatMap (by simp [vertexTokens, labelTokens]) ofTokens?_vertex,
      linesFrom?_flatMap (by simp [edgeTokens, labelTokens]) ofTokens?_edge]
    rfl
  · intro body hbody
    rw [tokens_dot] at hbody
    simp only [openingTokens, List.mem_append, List.mem_flatMap, vertexTokens, edgeTokens, labelTokens, List.mem_cons,
      List.not_mem_nil, or_false, Token.quoted.injEq, reduceCtorEq, false_or] at hbody
    have hnumber : ∀ n, '\n' ∉ (Text.decimal n).toList := Text.not_mem_decimal (by decide) (by decide)
    rcases hbody with ⟨v, -, rfl | rfl⟩ | ⟨e, -, rfl | rfl | rfl⟩
    · exact hnumber v.id
    · exact feed_not_mem_dotLabel v.id v.annotations
    · exact hnumber e.src
    · exact hnumber e.dst
    · exact feed_not_mem_dotLabel e.id e.annotations

/-- Quotes, backslashes, line feeds and other control characters in keys and in values. -/
example : lines? (dot ⟨[⟨1, [("k\\", "say \"hi\"\t\\\n")]⟩], [⟨7, 1, -2, [("\";\n\x7d", "")]⟩]⟩)
    = some [.opening "provql", .node 1 "id:1\nk\\:say \"hi\"\\\n", .edge 1 (-2) "id:7\n\";\n\x7d:", .closing] := by
  decide +kernel

end ExportedGraph

end Provenance
