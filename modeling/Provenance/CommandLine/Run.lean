import Provenance.Answer.Dot
import Provenance.Answer.Structured
import Provenance.CommandLine.Arguments
import Provenance.CommandLine.Failure
import Provenance.FilePath
import Provenance.Session

/-!
# Running commands

Each command over a host. A store is opened for one command, and saved after every change, also
when the command then fails. The dialogue answers one query a line; a failure is reported and the
dialogue goes on.
-/

namespace Provenance.CommandLine

open Store Backend

variable {m : Type → Type} [Monad m] (h : Host m)

/-- What is done on a host and may fail. -/
abbrev Task (m : Type → Type) := ExceptT Failure m

/-- Fails with the failure that an error makes. -/
def attempt {ε α : Type} (wrap : ε → Failure) (a : m (Except ε α)) : Task m α :=
  ExceptT.mk do return (← a).mapError wrap

def settled {ε α : Type} (wrap : ε → Failure) (result : Except ε α) : Task m α :=
  ExceptT.mk (pure (result.mapError wrap))

def say (text : String) : Task m Unit := ExceptT.lift (h.print text)

/-! ## Stores -/

/-- Opens a store that is there and adds the base relations that it lacks. -/
def opened (path : String) : Task m Database := do
  if ← ExceptT.lift (h.isPresent path) then
    let db ← attempt (.unopened path) (h.openStore false path)
    let db := Storage.install db
    ExceptT.lift (h.saveStore path db)
    pure db
  else throw (.storeMissing path)

/-- Acts on the store of a path and saves it, whether or not the action failed. -/
def onStore {ε α : Type} (path : String) (wrap : ε → Failure) (a : Action Database ε α) :
    Task m α := do
  let db ← opened h path
  let (result, db) := a.runFrom db
  ExceptT.lift (h.saveStore path db)
  settled wrap result

/-- Answering a query as an action that never fails. -/
def answering (query : String) : Action Database BackendError Answer :=
  .of fun db =>
    let (answer, db) := Session.respond memory query db
    (.ok answer, db)

/-! ## Commands -/

/-- A text that ends its line. -/
def ended (text : String) : String :=
  if text.toList.getLast? = some '\n' then text else text ++ "\n"

/-- Shows an answer, after an exported graph is written to its file. -/
def emit (answer : Answer) (json : Bool) : Task m Unit := do
  match answer with
  | .exported _ path content => attempt (.unwritten path) (h.writeText path content.dot)
  | _ => pure ()
  say h (if json then answer.json ++ "\n" else ended answer.shown)

def createStore (name : String) : Task m Unit := do
  let path := FilePath.ofStore name
  match FilePath.parent? path with
  | some parent =>
    if !parent.isEmpty then attempt (.noDirectory parent) (h.createDirectories parent)
  | none => pure ()
  if ← ExceptT.lift (h.isPresent path) then throw (.storePresent path)
  let db ← attempt (.uncreated path) (h.openStore true path)
  ExceptT.lift (h.saveStore path (Storage.install db))
  say h s!"created provql database at {path}\n"

def loadFile (store file : String) : Task m Unit := do
  let source ← attempt (.unread file) (h.readText file)
  let document ← settled (.badDocument file) (Document.read source)
  let (vertices, edges) ← onStore h store .unloaded (Storage.load document)
  say h s!"loaded {Text.natural vertices} vertices and {Text.natural edges} edges from {file}\n"

def queryText : QuerySource → Task m String
  | .given text => pure text
  | .file path => attempt (.unread path) (h.readText path)
  | .input => attempt .noInput h.readInput

def runQuery (store : String) (source : QuerySource) (json : Bool) : Task m Unit := do
  let query ← queryText h source
  let answer ← onStore h store .backend (answering query)
  emit h answer json
  if answer.isFailure then throw .queryFailed

def bindingLine (binding : String × String) : String := binding.1 ++ " -> " ++ binding.2 ++ "\n"

def listSymbols (store : String) : Task m Unit := do
  let bindings ← onStore h store .backend (Session.symbols memory)
  if bindings.isEmpty then say h "no variables bound\n"
  else say h (String.join (bindings.map bindingLine))

def collectGarbage (store : String) : Task m Unit := do
  let dropped ← onStore h store .backend (Session.collectGarbage memory)
  say h s!"dropped {Text.natural dropped} relation(s)\n"

def resetStore (store : String) (confirmed : Bool) : Task m Unit := do
  if !confirmed then throw .unconfirmed
  onStore h store .backend (.of fun db => (.ok (), Storage.reset db))
  say h s!"reset {store}\n"

/-! ## The dialogue -/

/-- The store as the dialogue left it, and whether answers are shown as JSON. -/
structure Dialogue where
  db : Database
  json : Bool

namespace Dialogue

def banner : String :=
  "provql REPL. Enter queries; `\\json` toggles JSON output, `\\symbols` lists bindings, "
    ++ "`\\quit` leaves.\n"

def prompt : String := "provql> "

/-- Acts on the store, saves it, and shows what the action gave. -/
def act {ε α : Type} (store : String) (d : Dialogue) (wrap : ε → Failure) (a : Action Database ε α)
    (display : α → Task m Unit) : m (Except Failure Unit × Dialogue) := do
  let (result, db) := a.runFrom d.db
  h.saveStore store db
  let shown ← (settled wrap result >>= display).run
  pure (shown, { d with db })

/-- Answers one line. An empty line says nothing. -/
def answerLine (store : String) (d : Dialogue) (line : String) :
    m (Except Failure Unit × Dialogue) := do
  if line = "" then pure (.ok (), d)
  else if line = "\\json" then
    h.print ("json output " ++ (if d.json then "off" else "on") ++ "\n")
    pure (.ok (), { d with json := !d.json })
  else if line = "\\symbols" then
    act h store d .backend (Session.symbols memory) fun bindings =>
      say h (String.join (bindings.map bindingLine))
  else act h store d .backend (answering line) fun answer => emit h answer d.json

/-- One line of the dialogue; a failure is reported. -/
def step (store : String) (d : Dialogue) (line : String) : m (Option Dialogue) := do
  let line := Text.trimBlanks line
  if line = "\\quit" || line = "\\exit" then pure none
  else
    let (outcome, d) ← answerLine h store d line
    match outcome with
    | .ok _ => pure ()
    | .error failure => h.printError failure.report
    h.print prompt
    pure (some d)

end Dialogue

def runDialogue (store : String) : Task m Unit := do
  let db ← opened h store
  say h (Dialogue.banner ++ Dialogue.prompt)
  ExceptT.lift (h.eachLine (Dialogue.step h store) ⟨db, false⟩)

/-! ## The program -/

/-- The store that a command is for. -/
def required (settings : Settings) : Task m String :=
  match settings.store with
  | some path => pure path
  | none => throw .noStore

def runCommand (settings : Settings) : Command → Task m Unit
  | .create name => createStore h name
  | .load file => do loadFile h (← required settings) file
  | .query source json => do runQuery h (← required settings) source json
  | .dialogue => do runDialogue h (← required settings)
  | .symbols => do listSymbols h (← required settings)
  | .collect => do collectGarbage h (← required settings)
  | .reset confirmed => do resetStore h (← required settings) confirmed

/-- Checks the log filter and runs a command. -/
def Invocation.execute (i : Invocation) : Task m Unit := do
  let filter := i.settings.filter.getD "warn"
  settled (.badFilter filter) (LogFilter.check filter)
  runCommand h i.settings i.command

def usage : String :=
  "Usage: provql [--db PATH] [--log-level FILTER] COMMAND\n\n"
    ++ "Commands:\n"
    ++ "  new NAME                             create a store\n"
    ++ "  load FILE                            load a graph document\n"
    ++ "  query [TEXT] [--file PATH] [--json]  answer a query\n"
    ++ "  repl                                 answer queries line by line\n"
    ++ "  symbols                              list the variables\n"
    ++ "  gc                                   drop what no variable reaches\n"
    ++ "  reset --yes                          empty the store\n"

/-- Runs the program and gives its exit code. -/
def run (environment : Settings) (arguments : List String) : m Nat := do
  match Invocation.read environment arguments with
  | .error .version =>
    h.print "provql 0.1.0\n"
    pure 0
  | .error .help =>
    h.print usage
    pure 0
  | .error (.refused reason) =>
    h.printError ("error: " ++ reason.message ++ "\n\n" ++ usage)
    pure 2
  | .ok i =>
    match ← (i.execute h).run with
    | .ok _ => pure 0
    | .error failure =>
      h.printError failure.report
      pure 1

end Provenance.CommandLine
