import Provenance.Proofs.CollapsedEdges
import Provenance.Proofs.ElementValues
import Provenance.Proofs.LiteralTexts

/-!
# Statements with literals

Giving elements a value and collapsing edges send texts that hold literals: a name, a value, the fields. These texts are
read piece by piece. What stands between the literals, and so the statements and their other tokens, does not depend on
what the literals stand for.
-/

namespace Provenance

open Store

/-! ## Statements of a text -/

namespace Store.Token

variable {cs : List Char}

/-- What follows a statement is shorter than the text. -/
theorem length_reading_lt (hcs : cs ≠ []) : (reading cs).2.length < cs.length := by
  induction hn : cs.length using Nat.strongRecOn generalizing cs with
  | ind n ih =>
    obtain ⟨c, r, rfl⟩ := List.exists_cons_of_ne_nil hcs
    have hdrop : ∀ m, (reading (r.drop m)).2.length ≤ r.length := fun m => by
      obtain hnil | hne := eq_or_ne (r.drop m) []
      · rw [hnil]
        exact Nat.zero_le _
      · have hlength := List.length_drop (l := r) (i := m)
        rw [List.length_cons] at hn
        exact (Nat.le_of_lt (ih _ (by omega) hne rfl)).trans (by omega)
    rw [List.length_cons] at hn
    by_cases hc : c = ';'
    · subst hc
      rw [reading_semicolon]
      show r.length < n
      omega
    obtain hgap | ⟨m, hgap⟩ : gapLength (c :: r) = 0 ∨ ∃ m, gapLength (c :: r) = m + 1 := by
      cases gapLength (c :: r) with
      | zero => exact .inl rfl
      | succ m => exact .inr ⟨m, rfl⟩
    · obtain ⟨m, hm⟩ := Nat.exists_eq_add_of_lt (length_first_pos c r)
      rw [reading_token (t := (first c r).1) (n := m) hc hgap (Prod.ext rfl (by rw [hm]; omega))]
      exact Nat.lt_of_le_of_lt (hdrop m) (by omega)
    · rw [reading_gap hc hgap]
      exact Nat.lt_of_le_of_lt (hdrop m) (by omega)

/-- The tokens of the statements of a text, one after the other. Empty statements are left out. -/
def sentences (cs : List Char) : List (List Token) :=
  if _ : cs = [] then []
  else if (reading cs).1.isEmpty then sentences (reading cs).2
  else (reading cs).1 :: sentences (reading cs).2
termination_by cs.length
decreasing_by all_goals exact length_reading_lt ‹_›

theorem sentences_nil : sentences [] = [] := by
  rw [sentences, dif_pos rfl]

theorem sentences_of_reading {ts : List Token} {rest : List Char} (h : reading cs = (ts, rest)) (hts : ts ≠ []) :
    sentences cs = ts :: sentences rest := by
  have hcs : cs ≠ [] := by
    rintro rfl
    cases h
    exact hts rfl
  rw [sentences, dif_neg hcs, h, if_neg (by simpa using hts)]

end Store.Token

/-! ## Outlines -/

open Store.Token (Reads Passes sentences isPlain starts starts_append)

/-- A part of what a statement is read as: a token, or the tokens of a literal. -/
inductive Item where
  | token (t : Token)
  | literal (text : String)

namespace Item

def tokens : Item → List Token
  | token t => [t]
  | literal text => literalTokens text

/-- With an empty text for a literal. -/
def emptied : Item → Item
  | token t => token t
  | literal _ => literal ""

/-- What a literal stands for. -/
def text? : Item → Option String
  | token _ => none
  | literal text => some text

end Item

/-- Two texts have the same statements, and these have the same tokens outside of literals. In the first text the
literals stand for the given values, in the second for empty texts. -/
def DifferInLiterals (text emptied : String) (values : List String) : Prop :=
  ∃ outline : List (List Item),
    sentences text.toList = outline.map (·.flatMap Item.tokens) ∧
    sentences emptied.toList = outline.map (·.flatMap fun item => item.emptied.tokens) ∧
    outline.flatten.filterMap Item.text? = values

/-- A name that is read in the same way wherever it ends, as every plain identifier is. -/
def Whole (name : String) : Prop := ∃ ts, Reads name.toList ts

theorem whole_of_isPlain {name : String} (h : isPlain name = true) : Whole name := ⟨_, .word h⟩

/-- Tokens outside of literals. -/
def fixed (ts : List Token) : List Item := ts.map .token

theorem tokens_fixed (ts : List Token) : (fixed ts).flatMap Item.tokens = ts := by
  rw [fixed, List.flatMap_map]
  exact List.flatMap_pure_eq_map id ts |>.trans ts.map_id

theorem emptied_fixed (ts : List Token) : (fixed ts).map Item.emptied = fixed ts := by
  rw [fixed, List.map_map]
  rfl

theorem text?_fixed (ts : List Token) : (fixed ts).filterMap Item.text? = [] := by
  rw [fixed, List.filterMap_map]
  exact List.filterMap_eq_nil_iff.2 fun _ _ => rfl

namespace Algebra

open Traversal (Connection)

/-! ## Names of tables -/

/-- A numbered name is a plain identifier if it starts as one. -/
theorem isPlain_numbered {start stop : String} (n : Nat) (hstart : isPlain start = true)
    (hstop : (stop.toList.all Token.isWordChar) = true) : isPlain (start ++ Text.natural n ++ stop) = true := by
  obtain ⟨c, cs, hcs, hc, hrest⟩ := Token.isPlain_iff.1 hstart
  have hdigits : (Text.natural n).toList = Nat.toDigits 10 n := String.toList_ofList
  refine Token.isPlain_iff.2 ⟨c, cs ++ (Nat.toDigits 10 n ++ stop.toList), ?_, hc, fun d hd => ?_⟩
  · rw [String.toList_append, String.toList_append, hcs, hdigits, List.cons_append, List.cons_append,
      List.append_assoc]
  · rcases List.mem_append.1 hd with hd | hd
    · exact hrest d hd
    rcases List.mem_append.1 hd with hd | hd
    · simp [Token.isWordChar, Text.isDigit_of_mem_toDigits hd]
    · exact List.all_eq_true.1 hstop d hd

theorem isPlain_label (side : Side) : ("_" ++ side.label).toList.all Token.isWordChar = true := by
  cases side <;> decide

/-- The tables of numbered graphs are named by plain identifiers. -/
theorem whole_graph (n : Nat) (side : Side) : Whole (Graph.table ⟨graphPrefix ++ Text.natural n⟩ side) := by
  rw [Graph.table, String.append_assoc]
  exact whole_of_isPlain (isPlain_numbered n (by decide) (isPlain_label side))

theorem whole_metadata (n : Nat) (side : Side) : Whole (Metadata.table ⟨metadataPrefix ++ Text.natural n⟩ side) := by
  rw [Metadata.table, String.append_assoc]
  exact whole_of_isPlain (isPlain_numbered n (by decide) (isPlain_label side))

theorem whole_base (side : Side) : Whole (Graph.base.table side) := by
  cases side <;> exact whole_of_isPlain (by decide)

/-! ## Giving a value -/

section Setting

variable {into frm : List Token} {table source : String}

/-- The text of the statement without its semicolon. -/
def settingText (table source name value : String) : String :=
  "INSERT INTO " ++ table ++ (" SELECT id, " ++ quoteLiteral name) ++ (", " ++ quoteLiteral value)
    ++ (" FROM " ++ source) ++ " GROUP BY id"

theorem text_setting (table source name value : String) :
    (Request.sequence [.insertFrom table (namedIds source name value)]).text
      = settingText table source name value ++ ";" := by
  have htext : (Request.sequence [.insertFrom table (namedIds source name value)]).text
      = "INSERT INTO " ++ table ++ " " ++ ("SELECT " ++ "" ++ ("id" ++ ", " ++ quoteLiteral name ++ ", "
        ++ quoteLiteral value) ++ (" FROM " ++ source) ++ "" ++ " GROUP BY id" ++ "" ++ "") ++ ";" := rfl
  have hselect : " SELECT id, " = " " ++ ("SELECT " ++ ("id" ++ ", ")) := by decide +kernel
  rewrite [htext, settingText, hselect]
  simp only [String.append_assoc, String.append_empty]

/-- What the statement is read as, if the names of its tables are read as the given tokens. -/
def settingOutline (into frm : List Token) (name value : String) : List Item :=
  fixed ([.word "INSERT", .word "INTO"] ++ into ++ [.word "SELECT", .word "id", .mark ',']) ++ [.literal name]
    ++ fixed [.mark ','] ++ [.literal value]
    ++ fixed ([.word "FROM"] ++ frm ++ [.word "GROUP", .word "BY", .word "id"])

theorem reads_setting (hinto : Reads table.toList into) (hfrom : Reads source.toList frm) (name value : String) :
    Reads (settingText table source name value).toList
      ((settingOutline into frm name value).flatMap Item.tokens) := by
  have hstart : Passes "INSERT INTO ".toList [.word "INSERT", .word "INTO"] :=
    .of_plainTokens? (by decide) (by decide)
  have hname : Passes " SELECT id, ".toList [.word "SELECT", .word "id", .mark ','] :=
    .of_plainTokens? (by decide) (by decide)
  have hvalue : Passes ", ".toList [.mark ','] := .of_plainTokens? (by decide) (by decide)
  have hsource : Passes " FROM ".toList [.word "FROM"] := .of_plainTokens? (by decide) (by decide)
  have hgroup : Reads " GROUP BY id".toList [.word "GROUP", .word "BY", .word "id"] := .of_plainTokens? (by decide)
  have hnamed := (hstart.append hinto).append (hname.append (reads_literal name)) (starts_append (by decide) _)
  have hvalued := hnamed.append (hvalue.append (reads_literal value)) (starts_append (by decide) _)
  have hread := (hvalued.append (hsource.append hfrom) (starts_append (by decide) _)).append hgroup (by decide)
  simp only [settingText, settingOutline, String.toList_append, List.flatMap_append, tokens_fixed]
  simpa [Item.tokens] using hread

end Setting

/-! ## Collapsing edges -/

section Collapsing

/-- Texts with separators between them. -/
theorem joined_cons (separator text : String) (texts : List String) :
    Store.joined separator (text :: texts) = text ++ String.join (texts.map (separator ++ ·)) := by
  induction texts generalizing text with
  | nil => simp [Store.joined]
  | cons next texts ih =>
    have hnext := ih next
    simp only [Store.joined] at hnext ⊢
    rw [String.intercalate_cons_of_ne_nil (List.cons_ne_nil next texts), hnext, List.map_cons, String.join_cons,
      String.append_assoc, String.append_assoc]

theorem join_flatMap {α : Type} (f : α → List String) (as : List α) :
    String.join (as.flatMap f) = String.join (as.map fun a => String.join (f a)) := by
  induction as with
  | nil => rfl
  | cons a as ih => rw [List.flatMap_cons, String.join_append, List.map_cons, String.join_cons, ih]

/-- The text of the statement that copies the vertices, without its semicolon. -/
def copyText (table source : String) : String := "INSERT INTO " ++ table ++ (" SELECT id FROM " ++ source)

/-- The text of the statement that joins the edges with their annotations, without its semicolon. -/
def joinText (table source : String) (fields : List String) : String :=
  "INSERT INTO " ++ table ++ " SELECT MIN(e.id) FROM edge e"
    ++ String.join (fields.zipIdx.map fun p => ", edge_anno " ++ collapsedName p.2)
    ++ (" WHERE e.id IN (SELECT id FROM " ++ source) ++ ")"
    ++ String.join (fields.zipIdx.map fun p => " AND e.id = " ++ collapsedName p.2
      ++ (".id AND " ++ collapsedName p.2) ++ (".field = " ++ quoteLiteral p.1))
    ++ " GROUP BY e.src, e.dst"
    ++ String.join (fields.zipIdx.map fun p => ", " ++ collapsedName p.2 ++ ".value")

theorem text_copy (table source : String) :
    (Statement.insertFrom table (.ids source)).text = copyText table source ++ ";" := by
  have htext : (Statement.insertFrom table (.ids source)).text
      = "INSERT INTO " ++ table ++ " " ++ ("SELECT " ++ "" ++ "id" ++ (" FROM " ++ source) ++ "" ++ "" ++ "" ++ "")
        ++ ";" := rfl
  have hselect : " SELECT id FROM " = " " ++ ("SELECT " ++ ("id" ++ " FROM ")) := by decide +kernel
  rewrite [htext, copyText, hselect]
  simp only [String.append_assoc, String.append_empty]

theorem clause_cons (keyword text : String) (texts : List String) (separator : String) :
    Selection.clause keyword (text :: texts) separator
      = keyword ++ (text ++ String.join (texts.map (separator ++ ·))) := by
  rw [← joined_cons]
  rfl

section Representatives

variable (source : Graph) (fields : List String)

theorem sources_representatives : (representatives source fields).sources
    = ⟨edgeTable, some "e", [.within (.of "e" "id") source.edgeTable]⟩ :: fieldSources fields := rfl

theorem text_sources : (representatives source fields).sources.map Source.text
    = ("edge" ++ " " ++ "e") :: fields.zipIdx.map fun p => "edge_anno" ++ " " ++ collapsedName p.2 := by
  rw [sources_representatives, List.map_cons, fieldSources, List.map_map]
  exact congrArg (_ :: ·) (List.map_congr_left fun p _ => rfl)

theorem text_conditions :
    ((representatives source fields).sources.flatMap fun s => s.conditions.map Condition.text)
      = ("e" ++ "." ++ "id" ++ " IN (SELECT id FROM " ++ source.edgeTable ++ ")")
        :: fields.zipIdx.flatMap fun p => ["e" ++ "." ++ "id" ++ " = " ++ (collapsedName p.2 ++ "." ++ "id"),
          collapsedName p.2 ++ "." ++ "field" ++ " = " ++ quoteLiteral p.1] := by
  rw [sources_representatives, List.flatMap_cons, fieldSources, List.flatMap_map]
  exact congrArg (_ :: ·) (List.flatMap_congr fun p _ => rfl)

theorem text_groupBy : (representatives source fields).groupBy.map ColumnRef.text
    = ("e" ++ "." ++ "src") :: ("e" ++ "." ++ "dst")
      :: fields.zipIdx.map fun p => collapsedName p.2 ++ "." ++ "value" := by
  have hrefs : (representatives source fields).groupBy = .of "e" "src" :: .of "e" "dst"
      :: fields.zipIdx.map fun p => .of (collapsedName p.2) "value" := rfl
  rw [hrefs, List.map_cons, List.map_cons, List.map_map]
  exact congrArg (_ :: _ :: ·) (List.map_congr_left fun p _ => rfl)

theorem text_join (table : String) :
    (Statement.insertFrom table (representatives source fields)).text
      = joinText table source.edgeTable fields ++ ";" := by
  have htext : (Statement.insertFrom table (representatives source fields)).text
      = "INSERT INTO " ++ table ++ " " ++ ("SELECT " ++ "" ++ ("MIN(" ++ ("e" ++ "." ++ "id") ++ ")")
        ++ Selection.clause " FROM " ((representatives source fields).sources.map Source.text) ", "
        ++ Selection.clause " WHERE "
          ((representatives source fields).sources.flatMap fun s => s.conditions.map Condition.text) " AND "
        ++ Selection.clause " GROUP BY " ((representatives source fields).groupBy.map ColumnRef.text) ", "
        ++ "" ++ "") ++ ";" := rfl
  -- the fixed parts of the text, cut where the parts of the statement meet
  have hselect : " SELECT MIN(e.id) FROM edge e"
      = " " ++ ("SELECT " ++ ("MIN(" ++ ("e" ++ ("." ++ ("id" ++ (")" ++ (" FROM " ++ ("edge" ++ (" " ++ "e")))))))))
        := by decide +kernel
  have hwhere : " WHERE e.id IN (SELECT id FROM "
      = " WHERE " ++ ("e" ++ ("." ++ ("id" ++ " IN (SELECT id FROM "))) := by decide +kernel
  have hgroup : " GROUP BY e.src, e.dst"
      = " GROUP BY " ++ ("e" ++ ("." ++ ("src" ++ (", " ++ ("e" ++ ("." ++ "dst")))))) := by decide +kernel
  have hanno : ", edge_anno " = ", " ++ ("edge_anno" ++ " ") := by decide +kernel
  have hand : " AND e.id = " = " AND " ++ ("e" ++ ("." ++ ("id" ++ " = "))) := by decide +kernel
  have hid : ".id AND " = "." ++ ("id" ++ " AND ") := by decide +kernel
  have hfield : ".field = " = "." ++ ("field" ++ " = ") := by decide +kernel
  have hvalue : ".value" = "." ++ "value" := by decide +kernel
  unfold joinText
  rewrite [htext, text_sources, text_conditions, text_groupBy, clause_cons, clause_cons, clause_cons, hselect, hwhere,
    hgroup]
  simp only [-String.reduceAppend, hanno, hand, hid, hfield, hvalue, List.map_cons, List.map_map, String.join_cons,
    List.map_flatMap, join_flatMap, String.append_assoc, String.append_empty, Function.comp_def, List.map_nil,
    String.join_nil]

end Representatives

/-- The names of joined annotations are plain identifiers. -/
theorem isPlain_collapsedName (i : Nat) : isPlain (collapsedName i) = true := by
  have hnumbered : isPlain ("ea" ++ Text.natural i ++ "") = true := isPlain_numbered i (by decide) (by decide)
  rwa [String.append_empty] at hnumbered

variable {into frm : List Token} {table source : String}

/-- What the first statement is read as, if the names of its tables are read as the given tokens. -/
def copyTokens (into frm : List Token) : List Token :=
  [.word "INSERT", .word "INTO"] ++ into ++ ([.word "SELECT", .word "id", .word "FROM"] ++ frm)

theorem reads_copy (hinto : Reads table.toList into) (hfrom : Reads source.toList frm) :
    Reads (copyText table source).toList (copyTokens into frm) := by
  have hstart : Passes "INSERT INTO ".toList [.word "INSERT", .word "INTO"] :=
    .of_plainTokens? (by decide) (by decide)
  have hsource : Passes " SELECT id FROM ".toList [.word "SELECT", .word "id", .word "FROM"] :=
    .of_plainTokens? (by decide) (by decide)
  have hread := (hstart.append hinto).append (hsource.append hfrom) (starts_append (by decide) _)
  simpa only [copyText, copyTokens, String.toList_append] using hread

/-- The tokens for the source of one field. -/
def sourceTokens (i : Nat) : List Token := [.mark ',', .word "edge_anno", .word (collapsedName i)]

/-- The tokens of the conditions for one field, up to its name. -/
def conditionTokens (i : Nat) : List Token :=
  [.word "AND", .word "e", .mark '.', .word "id", .mark '=', .word (collapsedName i), .mark '.', .word "id",
    .word "AND", .word (collapsedName i), .mark '.', .word "field", .mark '=']

/-- The tokens of the column for one field. -/
def columnTokens (i : Nat) : List Token := [.mark ',', .word (collapsedName i), .mark '.', .word "value"]

/-- What the second statement is read as, if the names of its tables are read as the given tokens. -/
def joinOutline (into frm : List Token) (fields : List String) : List Item :=
  fixed ([.word "INSERT", .word "INTO"] ++ into ++ [.word "SELECT", .word "MIN", .mark '(', .word "e", .mark '.',
      .word "id", .mark ')', .word "FROM", .word "edge", .word "e"] ++ fields.zipIdx.flatMap (fun p => sourceTokens p.2)
      ++ ([.word "WHERE", .word "e", .mark '.', .word "id", .word "IN", .mark '(', .word "SELECT", .word "id",
        .word "FROM"] ++ frm) ++ [.mark ')'])
    ++ fields.zipIdx.flatMap (fun p => fixed (conditionTokens p.2) ++ [.literal p.1])
    ++ fixed ([.word "GROUP", .word "BY", .word "e", .mark '.', .word "src", .mark ',', .word "e", .mark '.',
      .word "dst"] ++ fields.zipIdx.flatMap fun p => columnTokens p.2)

theorem reads_collapsedName (i : Nat) : Reads (collapsedName i).toList [.word (collapsedName i)] :=
  .word (isPlain_collapsedName i)

theorem reads_fieldSource (p : String × Nat) :
    Reads (", edge_anno " ++ collapsedName p.2).toList (sourceTokens p.2) := by
  have hanno : Passes ", edge_anno ".toList [.mark ',', .word "edge_anno"] := .of_plainTokens? (by decide) (by decide)
  rw [String.toList_append]
  exact hanno.append (reads_collapsedName p.2)

theorem reads_fieldConditions (p : String × Nat) : Reads (" AND e.id = " ++ collapsedName p.2
    ++ (".id AND " ++ collapsedName p.2) ++ (".field = " ++ quoteLiteral p.1)).toList
      (conditionTokens p.2 ++ literalTokens p.1) := by
  have hedge : Passes " AND e.id = ".toList [.word "AND", .word "e", .mark '.', .word "id", .mark '='] :=
    .of_plainTokens? (by decide) (by decide)
  have hid : Passes ".id AND ".toList [.mark '.', .word "id", .word "AND"] := .of_plainTokens? (by decide) (by decide)
  have hfield : Passes ".field = ".toList [.mark '.', .word "field", .mark '='] :=
    .of_plainTokens? (by decide) (by decide)
  have hnames := (hedge.append (reads_collapsedName p.2)).append (hid.append (reads_collapsedName p.2))
    (starts_append (by decide) _)
  simp only [String.toList_append]
  exact hnames.append (hfield.append (reads_literal p.1)) (starts_append (by decide) _)

theorem reads_fieldColumn (p : String × Nat) :
    Reads (", " ++ collapsedName p.2 ++ ".value").toList (columnTokens p.2) := by
  have hcomma : Passes ", ".toList [.mark ','] := .of_plainTokens? (by decide) (by decide)
  have hvalue : Reads ".value".toList [.mark '.', .word "value"] := .of_plainTokens? (by decide)
  rw [String.toList_append, String.toList_append]
  exact (hcomma.append (reads_collapsedName p.2)).append hvalue (by decide)

theorem reads_join (hinto : Reads table.toList into) (hfrom : Reads source.toList frm) (fields : List String) :
    Reads (joinText table source fields).toList ((joinOutline into frm fields).flatMap Item.tokens) := by
  have hstart : Passes "INSERT INTO ".toList [.word "INSERT", .word "INTO"] :=
    .of_plainTokens? (by decide) (by decide)
  have hselect : Reads " SELECT MIN(e.id) FROM edge e".toList [.word "SELECT", .word "MIN", .mark '(', .word "e",
      .mark '.', .word "id", .mark ')', .word "FROM", .word "edge", .word "e"] := .of_plainTokens? (by decide +kernel)
  have hwhere : Passes " WHERE e.id IN (SELECT id FROM ".toList [.word "WHERE", .word "e", .mark '.', .word "id",
      .word "IN", .mark '(', .word "SELECT", .word "id", .word "FROM"] :=
    .of_plainTokens? (by decide +kernel) (by decide +kernel)
  have hclose : Reads ")".toList [.mark ')'] := .of_plainTokens? (by decide)
  have hgroup : Reads " GROUP BY e.src, e.dst".toList [.word "GROUP", .word "BY", .word "e", .mark '.', .word "src",
      .mark ',', .word "e", .mark '.', .word "dst"] := .of_plainTokens? (by decide +kernel)
  have hsources := ((hstart.append hinto).append hselect (by decide)).flatMap reads_fieldSource (fun p => by
    rw [String.toList_append]
    exact starts_append (by decide) _) fields.zipIdx
  have hconditions := ((hsources.append (hwhere.append hfrom) (starts_append (by decide) _)).append hclose
    (by decide)).flatMap reads_fieldConditions (fun p => by
      rw [String.append_assoc, String.append_assoc, String.toList_append]
      exact starts_append (by decide) _) fields.zipIdx
  have hcolumns := (hconditions.append hgroup (by decide)).flatMap reads_fieldColumn (fun p => by
    rw [String.append_assoc, String.toList_append]
    exact starts_append (by decide) _) fields.zipIdx
  unfold joinText joinOutline
  simp only [String.toList_append, String.toList_join, List.flatMap_map, List.flatMap_append, tokens_fixed,
    List.flatMap_assoc, List.flatMap_singleton, Item.tokens, List.append_assoc] at hcolumns ⊢
  exact hcolumns

end Collapsing

/-! ## Requests -/

/-- The requests by which elements get a value, one for each covered side. -/
def settings (target : Metadata) (coverage : Coverage) (source : Graph) (name value : String) : List Request :=
  coverage.sides.map fun side => .sequence [.insertFrom (target.table side) (namedIds (source.table side) name value)]

/-- The request by which edges are collapsed. -/
def collapsing (target source : Graph) (fields : List String) : Request :=
  .sequence [.insertFrom target.vertexTable (.ids source.vertexTable),
    .insertFrom target.edgeTable (representatives source fields)]

theorem sentences_setting {table source : String} {into frm : List Token} (hinto : Reads table.toList into)
    (hfrom : Reads source.toList frm) (name value : String) :
    sentences (Request.sequence [.insertFrom table (namedIds source name value)]).text.toList
      = [(settingOutline into frm name value).flatMap Item.tokens] := by
  rw [text_setting, String.toList_append]
  exact (Token.sentences_of_reading ((reads_setting hinto hfrom name value).reading_semicolon [])
    (by simp [settingOutline, fixed, Item.tokens])).trans (by rw [Token.sentences_nil])

theorem sentences_collapsing {target source : Graph} {intoVertices intoEdges vertices edges : List Token}
    (hv : Reads target.vertexTable.toList intoVertices) (he : Reads target.edgeTable.toList intoEdges)
    (hv' : Reads source.vertexTable.toList vertices) (he' : Reads source.edgeTable.toList edges)
    (fields : List String) : sentences (collapsing target source fields).text.toList
      = [copyTokens intoVertices vertices, (joinOutline intoEdges edges fields).flatMap Item.tokens] := by
  have htext : (collapsing target source fields).text
      = (Statement.insertFrom target.vertexTable (.ids source.vertexTable)).text ++ "\n"
        ++ (Statement.insertFrom target.edgeTable (representatives source fields)).text := rfl
  have hsecond := (reads_join he he' fields).reading_semicolon []
  have hfeed : Token.reading ('\n' :: ((joinText target.edgeTable source.edgeTable fields).toList ++ [';'])) = _ :=
    (Token.reading_space (by decide) _).trans hsecond
  have hlist : (copyText target.vertexTable source.vertexTable ++ ";" ++ "\n"
      ++ (joinText target.edgeTable source.edgeTable fields ++ ";")).toList
      = (copyText target.vertexTable source.vertexTable).toList ++ ';' :: '\n'
        :: ((joinText target.edgeTable source.edgeTable fields).toList ++ [';']) := by
    simp only [String.toList_append, List.append_assoc]
    rfl
  rw [htext, text_copy, text_join, hlist,
    Token.sentences_of_reading ((reads_copy hv hv').reading_semicolon _) (by simp [copyTokens]),
    Token.sentences_of_reading hfeed (by simp [joinOutline, fixed, Item.tokens]), Token.sentences_nil]

theorem map_emptied_settingOutline (into frm : List Token) (name value : String) :
    (settingOutline into frm name value).map Item.emptied = settingOutline into frm "" "" := by
  simp only [settingOutline, List.map_append, emptied_fixed]
  rfl

theorem map_emptied_joinOutline (into frm : List Token) (fields : List String) :
    (joinOutline into frm fields).map Item.emptied = joinOutline into frm (fields.map fun _ => "") := by
  simp only [joinOutline, List.map_append, emptied_fixed, List.map_flatMap, List.zipIdx_map, List.flatMap_map]
  rfl

theorem differ_setting {table source : String} (htable : Whole table) (hsource : Whole source) (name value : String) :
    DifferInLiterals (Request.sequence [.insertFrom table (namedIds source name value)]).text
      (Request.sequence [.insertFrom table (namedIds source "" "")]).text [name, value] := by
  obtain ⟨into, hinto⟩ := htable
  obtain ⟨frm, hfrom⟩ := hsource
  refine ⟨[settingOutline into frm name value], sentences_setting hinto hfrom name value, ?_, ?_⟩
  · rw [sentences_setting hinto hfrom, ← map_emptied_settingOutline into frm name value, List.flatMap_map]
    rfl
  · simp [settingOutline, List.filterMap_append, text?_fixed, Item.text?]

theorem differ_collapsing {target source : Graph} (htarget : ∀ side, Whole (target.table side))
    (hsource : ∀ side, Whole (source.table side)) (fields : List String) :
    DifferInLiterals (collapsing target source fields).text (collapsing target source (fields.map fun _ => "")).text
      fields := by
  obtain ⟨intoVertices, hv⟩ := htarget .vertex
  obtain ⟨intoEdges, he⟩ := htarget .edge
  obtain ⟨vertices, hv'⟩ := hsource .vertex
  obtain ⟨edges, he'⟩ := hsource .edge
  refine ⟨[fixed (copyTokens intoVertices vertices), joinOutline intoEdges edges fields], ?_, ?_, ?_⟩
  · rw [sentences_collapsing hv he hv' he', List.map_cons, List.map_cons, List.map_nil, tokens_fixed]
  · have hemptied : ∀ items : List Item, (items.flatMap fun item => item.emptied.tokens)
        = (items.map Item.emptied).flatMap Item.tokens := fun items => by rw [List.flatMap_map]
    rw [sentences_collapsing hv he hv' he', List.map_cons, List.map_cons, List.map_nil, hemptied, hemptied,
      emptied_fixed, tokens_fixed, map_emptied_joinOutline]
  · have hfields : (fields.zipIdx.flatMap fun p => [p.1]) = fields := by
      rw [← List.map_eq_flatMap, List.zipIdx_map_fst]
    simp [joinOutline, List.filterMap_append, text?_fixed, List.filterMap_flatMap, Item.text?, hfields]

/-- A store with a document, a graph of one vertex and two edges, and empty metadata. -/
def described : Database :=
  ((sketched labelled [1] [11, 10]).add ⟨"meta_1_vertex", metadataColumns, [], []⟩).add
    ⟨"meta_1_edge", metadataColumns, [], []⟩

end Algebra

end Provenance
