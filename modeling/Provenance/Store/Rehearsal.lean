import Provenance.Store.Backend

/-!
# A store with rehearsed answers

A backend that keeps no tables. It answers from rules: the first rule whose cue occurs in the
statement text gives its next reply, and the last reply of a rule is repeated for ever. It keeps a
record of all calls; a call is on record before it may fail.
-/

namespace Provenance.Backend

open Store

inductive Reply where
  | output (text : String)
  | rows (list : List (List String))
  | failure (error : BackendError)
  deriving DecidableEq, Repr, Inhabited

structure Rule where
  cue : String
  replies : List Reply
  deriving DecidableEq, Repr, Inhabited

/-- The calls that a backend offers. -/
inductive CallKind where
  | execute
  | queryRows
  | relationNames
  | acquire
  | release
  deriving DecidableEq, Repr, Inhabited

structure Call where
  kind : CallKind
  text : String
  deriving DecidableEq, Repr, Inhabited

structure Rehearsal where
  rules : List Rule
  relations : Except BackendError (List String)
  /-- The calls so far, the last one first. -/
  calls : List Call

namespace Rehearsal

/-- The reply of the first rule for a text, and the rules with that reply used up. -/
def reply? (text : List Char) : List Rule → Option (Reply × List Rule)
  | [] => none
  | rule :: rules =>
    if Text.occurs rule.cue.toList text then
      match rule.replies with
      | [] => none
      | [last] => some (last, rule :: rules)
      | next :: later => some (next, { rule with replies := later } :: rules)
    else (reply? text rules).map fun (r, rules) => (r, rule :: rules)

def record (kind : CallKind) (text : String) (s : Rehearsal) : Rehearsal :=
  { s with calls := ⟨kind, text⟩ :: s.calls }

/-- Records a call and takes the reply to it. -/
def take (kind : CallKind) (r : Request) (s : Rehearsal) : Option Reply × Rehearsal :=
  let text := r.text
  let s := s.record kind text
  match reply? text.toList s.rules with
  | some (reply, rules) => (some reply, { s with rules })
  | none => (none, s)

/-- The calls in the order in which they were made. -/
def trace (s : Rehearsal) : List Call := s.calls.reverse

end Rehearsal

/-- The rehearsed store. Without a reply, it gives no output and no rows. -/
def rehearsed : Backend Rehearsal where
  execute r := .of fun s =>
    match s.take .execute r with
    | (some (.output text), s) => (.ok text, s)
    | (some (.failure e), s) => (.error e, s)
    | (_, s) => (.ok "", s)
  queryRows r := .of fun s =>
    match s.take .queryRows r with
    | (some (.rows list), s) => (.ok list, s)
    | (some (.failure e), s) => (.error e, s)
    | (_, s) => (.ok [], s)
  relationNames := .of fun s => (s.relations, s.record .relationNames "")
  acquire := Rehearsal.record .acquire ""
  release := Rehearsal.record .release ""

end Provenance.Backend
