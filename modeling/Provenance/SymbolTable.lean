import Provenance.Handle
import Provenance.OrderedMap
import Provenance.Store.Backend

/-!
# The symbol table

Variables are bound to the names of graphs and metadata. The bindings are stored in the relation
`symbols` and mirrored in memory. A new binding is *pending* until it is committed, and so is the
wish to forget all bindings; both can be discarded instead. One more row of the relation keeps the
counter from which new names are made. The counter is stored as soon as it grows, so that no name is
given out twice, whatever becomes of the bindings.

`$base` is always bound to the base graph and cannot be bound to anything else.
-/

namespace Provenance

open Store

/-- The bindings of a session, in memory. -/
structure SymbolTable where
  bindings : OrderedMap String String
  /-- The bindings that are not stored yet. -/
  pending : OrderedMap String String
  /-- Whether the stored bindings are to be forgotten at the next commit. -/
  cleared : Bool
  counter : Int
  deriving DecidableEq, Repr, Inhabited

/-- The variable of the base graph. -/
def baseVariable : String := "$base"

namespace SymbolTable

/-! ## In memory -/

/-- The name that a variable is bound to. -/
def lookup? (t : SymbolTable) (var : String) : Option String :=
  if var = baseVariable then some Graph.base.name else t.bindings.find? var

/-- Binds a variable, unless it is reserved. -/
def bind? (t : SymbolTable) (var name : String) : Option SymbolTable :=
  if var = baseVariable then none
  else some { t with
    bindings := t.bindings.insert var name
    pending := t.pending.insert var name }

/-- Forgets all bindings. The counter stays. -/
def clear (t : SymbolTable) : SymbolTable :=
  { t with bindings := [], pending := [], cleared := true }

/-- The number after `n` among the 64-bit words. -/
def wordAfter (n : Int) : Int := (n + 1).bmod (Nat.pow 2 64)

/-! ## The relation -/

/-- The relation of the bindings. -/
def relation : String := "symbols"

/-- The row of the relation that keeps the counter. -/
def counterKey : String := "id_counter"

def columns : List Column := [(Column.text "name").key, (Column.text "value").required]

/-- Creates the relation, if it is not there. -/
def createRelation : Statement := .create true relation (.known columns)

/-- Stores one binding. -/
def storeBinding (var name : String) : Statement :=
  .upsert relation "name" "value" var name

def storeCounter (n : Int) : Statement := storeBinding counterKey (Text.decimal n)

/-- Bindings and counter, as far as they have been read. -/
abbrev Stored := OrderedMap String String × Int

/-- Takes in one row of the relation. -/
def readRow (stored : Stored) (row : List String) : Except BackendError Stored :=
  match row with
  | [var, name] =>
    if var = counterKey then
      match Text.trimmedWord? name with
      | some n => .ok (stored.1, n)
      | none => .error (.unexpected name)
    else .ok (stored.1.insert var name, stored.2)
  | row => .error (.other
      s!"symbol table row has {Text.natural row.length} columns, expected 2")

variable {σ : Type}

/-- The stored bindings and the stored counter. -/
def readStored (b : Backend σ) : Action σ BackendError Stored := do
  let rows ← b.queryRows (.single (.select (.columns ["name", "value"] relation [])))
  .ofExcept (rows.foldlM readRow ([], 0))

/-- The symbol table of a store, of which the relation is created if it is not there. -/
def load (b : Backend σ) : Action σ BackendError SymbolTable := do
  b.perform (.single createRelation)
  let (bindings, counter) ← readStored b
  pure { bindings, pending := [], cleared := false, counter }

end SymbolTable

/-- A symbol table and the store that keeps it. -/
structure Workspace (σ : Type) where
  symbols : SymbolTable
  store : σ

namespace Workspace

open SymbolTable

variable {σ : Type}

def storeLens : Lens (Workspace σ) σ := ⟨store, fun store w => { w with store }⟩

/-- Sends a request to the store. -/
def send (b : Backend σ) (r : Request) : Action (Workspace σ) BackendError Unit :=
  (b.perform r).along storeLens

def modifySymbols (f : SymbolTable → SymbolTable) : Action (Workspace σ) BackendError Unit :=
  modify fun w => { w with symbols := f w.symbols }

/-! ## New names -/

/-- A number that was not given out before. It is stored before it is given out. -/
def freshNumber (b : Backend σ) : Action (Workspace σ) BackendError Int := do
  let next := wordAfter (← get).symbols.counter
  send b (.single (storeCounter next))
  modifySymbols fun t => { t with counter := next }
  pure next

/-- A name for a new graph. -/
def freshGraph (b : Backend σ) : Action (Workspace σ) BackendError Graph := do
  let n ← freshNumber b
  pure ⟨graphPrefix ++ Text.decimal n⟩

/-- A name for new metadata. -/
def freshMetadata (b : Backend σ) : Action (Workspace σ) BackendError Metadata := do
  let n ← freshNumber b
  pure ⟨metadataPrefix ++ Text.decimal n⟩

/-! ## Commit and discard -/

/-- Empties the relation, but for the counter, if the bindings were forgotten. -/
def commitClear (b : Backend σ) : Action (Workspace σ) BackendError Unit := do
  let t := (← get).symbols
  if t.cleared then
    send b (.sequence [.discard relation, createRelation])
    send b (.single (storeCounter t.counter))
    modifySymbols fun t => { t with cleared := false }
  else pure ()

/-- Stores what is pending. Bindings whose storing fails are no longer pending. -/
def commit (b : Backend σ) : Action (Workspace σ) BackendError Unit := do
  commitClear b
  let pending := (← get).symbols.pending
  modifySymbols fun t => { t with pending := [] }
  pending.forM fun (var, name) => send b (.single (storeBinding var name))

/-- Returns to the stored bindings, if anything is pending. The counter stays. -/
def discard (b : Backend σ) : Action (Workspace σ) BackendError Unit := do
  let t := (← get).symbols
  if t.pending.isEmpty && !t.cleared then pure ()
  else
    let (bindings, _) ← (readStored b).along storeLens
    modifySymbols fun t => { t with bindings, pending := [], cleared := false }

end Workspace

/-! ## Collecting what no variable reaches -/

namespace SymbolTable

/-- The two relations of a graph or of metadata of some name. -/
def relationsOf (name : String) : List String := Side.all.map (Graph.table ⟨name⟩)

/-- The relations that a collection keeps, whatever their names begin with. -/
def reachable (t : SymbolTable) : List String :=
  Side.all.map Side.baseTable ++ Side.all.map Side.annotationTable ++ [relation]
    ++ relationsOf Graph.base.name ++ t.bindings.flatMap fun (_, name) => relationsOf name

def beginsWith (start name : String) : Bool := start.toList.isPrefixOf name.toList

/-- Whether a collection drops a relation: it is a scratch table, or it is one of a graph or of
metadata that no variable reaches. -/
def isCollected (t : SymbolTable) (name : String) : Bool :=
  beginsWith scratchPrefix name
    || ((beginsWith graphPrefix name || beginsWith metadataPrefix name)
      && !t.reachable.contains name)

end SymbolTable

/-- Drops the relations that are to be collected, in one request, and gives their number. -/
def Workspace.collect {σ : Type} (b : Backend σ) : Action (Workspace σ) BackendError Nat := do
  let names ← b.relationNames.along storeLens
  let t := (← get).symbols
  let collected := names.filter t.isCollected
  if collected.isEmpty then pure ()
  else send b (.lines (collected.map Statement.discard))
  pure collected.length

end Provenance
