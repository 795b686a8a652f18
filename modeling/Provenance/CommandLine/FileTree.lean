import Provenance.CommandLine.Host
import Provenance.Text.Pieces

/-!
# Files in memory

Files as a finite map from places to directories, texts and stores. A place is a list of names, the
innermost first, starting from the working directory. A path is walked name by name, and every name
but the last has to be that of a directory.

A store is found under the names of its path alone, also where a name in the middle leads nowhere or
a slash stands at the end.
-/

namespace Provenance.CommandLine

open Store

inductive Node where
  | directory
  | text (content : String)
  | store (content : Database)
  deriving Repr, Inhabited

/-- The names that lead to a file, the innermost first; a path from the root has `/` as its
outermost name. -/
abbrev Location := List String

/-- The place of a name inside a place. -/
def Location.enter (l : Location) (name : String) : Location :=
  if name = "" || name = "." then l
  else if name = ".." then
    match l with
    | [] => [".."]
    | "/" :: _ => l
    | ".." :: _ => ".." :: l
    | _ :: outer => outer
  else name :: l

structure FileTree where
  nodes : List (Location × Node)
  deriving Repr, Inhabited

namespace FileTree

def empty : FileTree := ⟨[]⟩

/-- What is at a place. The working directory and all above it are directories. -/
def node? (t : FileTree) (l : Location) : Option Node :=
  if l.all fun name => name = ".." || name = "/" then some .directory
  else (t.nodes.find? fun n => n.1 = l).map (·.2)

def put (t : FileTree) (l : Location) (n : Node) : FileTree :=
  ⟨(l, n) :: t.nodes.filter fun other => other.1 ≠ l⟩

/-! ## Paths -/

/-- The place where a path starts. -/
def origin (path : String) : Location := if path.toList.head? = some '/' then ["/"] else []

/-- The place that names lead to. -/
def walk (t : FileTree) : Location → List String → Except FileFault Location
  | l, [] => .ok l
  | l, name :: names =>
    match t.node? l with
    | some .directory => walk t (l.enter name) names
    | some _ => .error .notDirectory
    | none => .error .missing

/-- The place that a path leads to; nothing need be there. -/
def locate (t : FileTree) (path : String) : Except FileFault Location :=
  if path.isEmpty then .error .missing
  else if path.toList.contains '\x00' then .error .badName
  else t.walk (origin path) (Text.pieces '/' path)

/-- What a path leads to. -/
def find (t : FileTree) (path : String) : Except FileFault Node := do
  let l ← t.locate path
  match t.node? l with
  | some n => pure n
  | none => throw .missing

def isPresent (t : FileTree) (path : String) : Bool := (t.find path).isOk

/-- The place of a store, whatever leads there. -/
def storeLocation (path : String) : Location :=
  (Text.pieces '/' path).foldl Location.enter (origin path)

/-! ## Texts and directories -/

def readText (t : FileTree) (path : String) : Except FileFault String := do
  match ← t.find path with
  | .text content => pure content
  | .directory => throw .isDirectory
  | .store _ => throw .notText

/-- Writes a text. A path with a slash at its end can only name a directory. -/
def writeText (t : FileTree) (path content : String) : Except FileFault FileTree := do
  let cs := path.toList.reverse.dropWhile (· == '/')
  let l ← t.locate (String.ofList cs.reverse)
  if cs.length < path.length then throw .isDirectory
  else
    match t.node? l with
    | some .directory => throw .isDirectory
    | _ => pure (t.put l (.text content))

/-- Makes the directories that names lead to. -/
def createFrom (t : FileTree) : Location → List String → Except FileFault FileTree
  | _, [] => .ok t
  | l, name :: names =>
    let inner := l.enter name
    match t.node? inner with
    | none => createFrom (t.put inner .directory) inner names
    | some .directory => createFrom t inner names
    | some _ => .error (if names.isEmpty then .present else .notDirectory)

def createDirectories (t : FileTree) (path : String) : Except FileFault FileTree :=
  if path.toList.contains '\x00' then .error .badName
  else createFrom t (origin path) (Text.pieces '/' path)

/-! ## Stores -/

/-- Opens a store. An empty text is a store without tables. -/
def openStore (t : FileTree) (create : Bool) (path : String) : Except StoreFault Database :=
  match t.node? (storeLocation path) with
  | some (.store content) => .ok content
  | some (.text content) => if content.isEmpty then .ok .empty else .error .foreign
  | some .directory => if create && path.isEmpty then .ok .empty else .error .closed
  | none => if create then .ok .empty else .error .closed

/-- Saves a store, unless it has no name and is not kept. -/
def saveStore (t : FileTree) (path : String) (content : Database) : FileTree :=
  if path.isEmpty then t else t.put (storeLocation path) (.store content)

end FileTree

/-! ## A host in memory -/

/-- Files, what is left of the standard input, and what was written to the two outputs. -/
structure Desktop where
  files : FileTree
  input : String
  output : String
  errors : String
  deriving Repr, Inhabited

namespace Desktop

abbrev Run := StateM Desktop

/-- Changes the files, unless that fails. -/
def change (f : FileTree → Except FileFault FileTree) : Run (Except FileFault Unit) := do
  let d ← get
  match f d.files with
  | .ok files =>
    set { d with files }
    pure (.ok ())
  | .error fault => pure (.error fault)

/-- Does a step for each line, until a step gives nothing. -/
def steps {α : Type} (step : α → String → Run (Option α)) : α → List String → Run Unit
  | _, [] => pure ()
  | a, line :: rest => do
    match ← step a line with
    | some a => steps step a rest
    | none => pure ()

def host : Host Run where
  readText path := do return (← get).files.readText path
  writeText path content := change fun t => t.writeText path content
  isPresent path := do return (← get).files.isPresent path
  createDirectories path := change fun t => t.createDirectories path
  openStore create path := do return (← get).files.openStore create path
  saveStore path content := modify fun d => { d with files := d.files.saveStore path content }
  readInput := do return .ok (← get).input
  eachLine step a := do steps step a (Text.lines (← get).input)
  print text := modify fun d => { d with output := d.output ++ text }
  printError text := modify fun d => { d with errors := d.errors ++ text }

end Desktop

end Provenance.CommandLine
