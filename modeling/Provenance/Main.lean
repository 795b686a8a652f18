import Provenance.CommandLine.Run
import Provenance.Store.Archive

/-!
# The program

The machine as a host. A store is a file that holds an archive.
-/

namespace Provenance.CommandLine.Machine

open Store

/-- The fault that an error of the system shows. -/
def faultOf : IO.Error → FileFault
  | .noFileOrDirectory .. => .missing
  | .noSuchThing .. => .missing
  | .alreadyExists .. => .present
  | .inappropriateType _ code _ => if code = 20 then .notDirectory else .isDirectory
  | e => .other (toString e)

/-- Gives the fault of an error as a value. -/
def guarded {α : Type} (act : IO α) : IO (Except FileFault α) := do
  match ← act.toBaseIO with
  | .ok value => pure (.ok value)
  | .error e => pure (.error (faultOf e))

/-- Reads a file as text. -/
def readText (path : String) : IO (Except FileFault String) := do
  match ← guarded (IO.FS.readBinFile path) with
  | .error fault => pure (.error fault)
  | .ok bytes =>
    match String.fromUTF8? bytes with
    | some text => pure (.ok text)
    | none => pure (.error .notText)

/-- Whether something is found at a path. -/
def isPresent (path : String) : IO Bool := do
  match ← guarded (IO.FS.Handle.mk path .read) with
  | .ok _ => pure true
  | .error fault => pure (fault ≠ .missing && fault ≠ .notDirectory)

def openStore (create : Bool) (path : String) : IO (Except StoreFault Database) := do
  match ← readText path with
  | .ok text =>
    match Database.ofArchive? text with
    | some db => pure (.ok db)
    | none => pure (.error .foreign)
  | .error .notText => pure (.error .foreign)
  | .error .missing => pure (if create then .ok .empty else .error .closed)
  | .error _ => pure (.error .closed)

/-- Saves a store, unless it has no name and is not kept. -/
def saveStore (path : String) (db : Database) : IO Unit :=
  if path.isEmpty then pure () else IO.FS.writeFile path db.archive

/-- All that is left of a stream. -/
partial def readRest (stream : IO.FS.Stream) (read : ByteArray) : IO ByteArray := do
  let bytes ← stream.read 65536
  if bytes.isEmpty then pure read else readRest stream (read ++ bytes)

def readInput : IO (Except FileFault String) := do
  match ← guarded (do readRest (← IO.getStdin) .empty) with
  | .error fault => pure (.error fault)
  | .ok bytes =>
    match String.fromUTF8? bytes with
    | some text => pure (.ok text)
    | none => pure (.error .notText)

/-- Does a step for each line of the standard input, until a step gives nothing. -/
partial def eachLine {α : Type} (step : α → String → IO (Option α)) (a : α) : IO Unit := do
  let line ← (← IO.getStdin).getLine
  if !line.isEmpty then
    match ← step a line with
    | some a => eachLine step a
    | none => pure ()

def host : Host IO where
  readText := readText
  writeText path content := guarded (IO.FS.writeFile path content)
  isPresent := isPresent
  createDirectories path := guarded (IO.FS.createDirAll path)
  openStore := openStore
  saveStore := saveStore
  readInput := readInput
  eachLine := eachLine
  print text := do
    let out ← IO.getStdout
    out.putStr text
    out.flush
  printError text := IO.eprint text

end Provenance.CommandLine.Machine

open Provenance.CommandLine in
/-- Runs the program on its arguments; variables of the environment may name the store and the log
filter. -/
def main (arguments : List String) : IO UInt32 := do
  let environment : Settings := ⟨← IO.getEnv "PROVQL_DB", ← IO.getEnv "PROVQL_LOG"⟩
  let code ← run Machine.host environment arguments
  pure code.toUInt32
