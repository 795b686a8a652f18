import Provenance.Store.Table

/-!
# What the program asks of its host

A *host* reads and writes files, keeps stores, and is talked to over a standard input and two
outputs. It is a record of actions of some monad, so that the program can be run over any host, be
it the machine or a description of one.
-/

namespace Provenance.CommandLine

open Store

/-- Why a file or a directory cannot be used. -/
inductive FileFault where
  | missing
  | present
  | notDirectory
  | isDirectory
  | badName
  | notText
  | other (message : String)
  deriving DecidableEq, Repr, Inhabited

def FileFault.message : FileFault → String
  | missing => "No such file or directory (os error 2)"
  | present => "File exists (os error 17)"
  | notDirectory => "Not a directory (os error 20)"
  | isDirectory => "Is a directory (os error 21)"
  | badName => "file name contained an unexpected NUL byte"
  | notText => "stream did not contain valid UTF-8"
  | other message => message

/-- Why a file cannot be used as a store. -/
inductive StoreFault where
  /-- There is nothing that could be opened. -/
  | closed
  /-- The file holds something else. -/
  | foreign
  deriving DecidableEq, Repr, Inhabited

structure Host (m : Type → Type) where
  readText : String → m (Except FileFault String)
  /-- Puts a text in the place of a file, or makes a new file. -/
  writeText : String → String → m (Except FileFault Unit)
  isPresent : String → m Bool
  /-- Makes a directory, after all that it lies in. -/
  createDirectories : String → m (Except FileFault Unit)
  /-- Opens the store of a path, which is made if `create` says so. -/
  openStore : (create : Bool) → String → m (Except StoreFault Database)
  saveStore : String → Database → m Unit
  /-- All of the standard input. -/
  readInput : m (Except FileFault String)
  /-- Does a step for each line of the standard input, until a step gives nothing. -/
  eachLine : {α : Type} → (α → String → m (Option α)) → α → m Unit
  print : String → m Unit
  printError : String → m Unit

end Provenance.CommandLine
