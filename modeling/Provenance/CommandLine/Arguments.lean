import Provenance.Text.Pieces

/-!
# Arguments

What the program is asked to do. Arguments are options and words. An option is written `--long` or
`-s`; one that takes a value has it attached, as in `--long=value`, `-svalue` or `-s=value`, or in
the next argument, which must not look like an option. Behind `--` all arguments are words.

The first word is a command, which has options and words of its own. The store and the log filter
may be given before and after the command, and by the environment; what stands behind the command
counts first, what stands before it second, the environment last.
-/

namespace Provenance.CommandLine

/-- Where a query is read from. -/
inductive QuerySource where
  | given (text : String)
  | file (path : String)
  | input
  deriving DecidableEq, Repr, Inhabited

inductive Command where
  | create (name : String)
  | load (file : String)
  | query (source : QuerySource) (json : Bool)
  | dialogue
  | symbols
  | collect
  | reset (confirmed : Bool)
  deriving DecidableEq, Repr, Inhabited

/-- What holds for every command. -/
structure Settings where
  store : Option String
  filter : Option String
  deriving DecidableEq, Repr, Inhabited

structure Invocation where
  settings : Settings
  command : Command
  deriving DecidableEq, Repr, Inhabited

/-! ## Options and commands -/

inductive OptionKey where
  | store
  | filter
  | file
  | json
  | confirmed
  | help
  | version
  deriving DecidableEq, Repr, Inhabited

namespace OptionKey

def long : OptionKey → String
  | store => "db"
  | filter => "log-level"
  | file => "file"
  | json => "json"
  | confirmed => "yes"
  | help => "help"
  | version => "version"

def short? : OptionKey → Option Char
  | store => some 'd'
  | file => some 'f'
  | help => some 'h'
  | version => some 'V'
  | _ => none

def takesValue : OptionKey → Bool
  | store => true
  | filter => true
  | file => true
  | _ => false

/-- Whether the value is a path, which has to have characters. -/
def isPath : OptionKey → Bool
  | store => true
  | file => true
  | _ => false

end OptionKey

inductive Verb where
  | new
  | load
  | query
  | repl
  | symbols
  | gc
  | reset
  deriving DecidableEq, Repr, Inhabited

namespace Verb

def all : List Verb := [new, load, query, repl, symbols, gc, reset]

def label : Verb → String
  | new => "new"
  | load => "load"
  | query => "query"
  | repl => "repl"
  | symbols => "symbols"
  | gc => "gc"
  | reset => "reset"

def ofLabel? (label : String) : Option Verb := all.find? fun v => v.label == label

/-- The number of words that a command can take. -/
def room : Verb → Nat
  | new => 1
  | load => 1
  | query => 1
  | _ => 0

/-- The options behind a command. -/
def options : Verb → List OptionKey
  | query => [.file, .json, .store, .filter, .help]
  | reset => [.confirmed, .store, .filter, .help]
  | _ => [.store, .filter, .help]

end Verb

/-- The options before a command. -/
def generalOptions : List OptionKey := [.store, .filter, .help, .version]

/-! ## Reading -/

inductive Refusal where
  | unknownOption (argument : String)
  | missingValue (key : OptionKey)
  | unexpectedValue (key : OptionKey)
  | emptyValue (key : OptionKey)
  | repeated (key : OptionKey)
  | unexpectedWord (word : String)
  | missingWord
  | emptyWord
  | unknownCommand (word : String)
  | missingCommand
  | conflict
  deriving DecidableEq, Repr, Inhabited

def Refusal.message : Refusal → String
  | unknownOption argument => s!"unexpected argument '{argument}' found"
  | missingValue key => s!"a value is required for '--{key.long}' but none was supplied"
  | unexpectedValue key => s!"unexpected value for '--{key.long}' found; no more were expected"
  | emptyValue key => s!"a value is required for '--{key.long}' but it is empty"
  | repeated key => s!"the argument '--{key.long}' cannot be used multiple times"
  | unexpectedWord word => s!"unexpected argument '{word}' found"
  | missingWord => "a required argument was not provided"
  | emptyWord => "a required argument is empty"
  | unknownCommand word => s!"unrecognized subcommand '{word}'"
  | missingCommand => "a subcommand is required"
  | conflict => "the query and '--file' cannot be used together"

/-- What keeps a command from being run. -/
inductive Halt where
  | refused (reason : Refusal)
  | help
  | version
  deriving DecidableEq, Repr, Inhabited

/-- The options and words read so far. -/
structure Given where
  options : List (OptionKey × String)
  words : List String
  deriving Repr, Inhabited

namespace Given

def nothing : Given := ⟨[], []⟩

def value? (g : Given) (key : OptionKey) : Option String :=
  (g.options.find? fun o => o.1 == key).map (·.2)

def has (g : Given) (key : OptionKey) : Bool := (g.value? key).isSome

/-- Adds an option, which may be given once. Help and version are answered at once. -/
def add (g : Given) (key : OptionKey) (value : String) : Except Halt Given :=
  if key = .help then .error .help
  else if key = .version then .error .version
  else if g.has key then .error (.refused (.repeated key))
  else if key.isPath && value.isEmpty then .error (.refused (.emptyValue key))
  else .ok { g with options := (key, value) :: g.options }

/-- Adds a word where there is room for it. -/
def addWord (room : Nat) (g : Given) (word : String) : Except Halt Given :=
  if g.words.length < room then .ok { g with words := g.words ++ [word] }
  else .error (.refused (.unexpectedWord word))

end Given

/-- An argument by its form. -/
inductive Argument where
  | word
  | escape
  | option (key : OptionKey) (attached : Option String)
  deriving DecidableEq, Repr, Inhabited

/-- The option of a long name, which may have a value attached. -/
def longOption (known : List OptionKey) (cs : List Char) : Except Refusal Argument :=
  let name := cs.takeWhile (· != '=')
  let attached :=
    if name.length = cs.length then none else some (String.ofList (cs.drop (name.length + 1)))
  match known.find? fun key => key.long.toList == name with
  | none => .error (.unknownOption ("--" ++ String.ofList cs))
  | some key =>
    if attached.isSome && !key.takesValue then .error (.unexpectedValue key)
    else .ok (.option key attached)

/-- The option of a letter, with what follows as its value if it takes one. -/
def shortOption (known : List OptionKey) (c : Char) (cs : List Char) : Except Refusal Argument :=
  match known.find? fun key => key.short? == some c with
  | none => .error (.unknownOption ("-" ++ String.ofList (c :: cs)))
  | some key =>
    let attached :=
      match cs with
      | [] => none
      | '=' :: value => some (String.ofList value)
      | value => some (String.ofList value)
    .ok (.option key (if key.takesValue then attached else none))

def classify (known : List OptionKey) (argument : String) : Except Refusal Argument :=
  match argument.toList with
  | ['-', '-'] => .ok .escape
  | '-' :: '-' :: cs => longOption known cs
  | '-' :: c :: cs => shortOption known c cs
  | _ => .ok .word

/-- Whether an argument cannot be the value of the option before it. -/
def looksLikeOption (argument : String) : Bool :=
  match argument.toList with
  | '-' :: _ :: _ => true
  | _ => false

/-- Reads the arguments before the command. What is left begins with the command. -/
def readGeneral (g : Given) : List String → Except Halt (Given × List String)
  | [] => .error (.refused .missingCommand)
  | argument :: rest =>
    match classify generalOptions argument with
    | .error reason => .error (.refused reason)
    | .ok .word => .ok (g, argument :: rest)
    | .ok .escape => .error (.refused (rest.head?.elim .missingCommand .unexpectedWord))
    | .ok (.option key (some value)) => do readGeneral (← g.add key value) rest
    | .ok (.option key none) =>
      if key.takesValue then
        match rest with
        | value :: rest =>
          if looksLikeOption value then .error (.refused (.missingValue key))
          else do readGeneral (← g.add key value) rest
        | [] => .error (.refused (.missingValue key))
      else do readGeneral (← g.add key "") rest

/-- Reads the arguments behind a command. -/
def readOwn (verb : Verb) (g : Given) : List String → Except Halt Given
  | [] => .ok g
  | argument :: rest =>
    match classify verb.options argument with
    | .error reason => .error (.refused reason)
    | .ok .word => do readOwn verb (← g.addWord verb.room argument) rest
    | .ok .escape => rest.foldlM (Given.addWord verb.room) g
    | .ok (.option key (some value)) => do readOwn verb (← g.add key value) rest
    | .ok (.option key none) =>
      if key.takesValue then
        match rest with
        | value :: rest =>
          if looksLikeOption value then .error (.refused (.missingValue key))
          else do readOwn verb (← g.add key value) rest
        | [] => .error (.refused (.missingValue key))
      else do readOwn verb (← g.add key "") rest

def requiredWord (g : Given) : Except Refusal String :=
  match g.words with
  | word :: _ => .ok word
  | [] => .error .missingWord

def requiredPath (g : Given) : Except Refusal String := do
  let path ← requiredWord g
  if path.isEmpty then .error .emptyWord else .ok path

def querySource (g : Given) : Except Refusal QuerySource :=
  match g.words, g.value? .file with
  | _ :: _, some _ => .error .conflict
  | text :: _, none => .ok (.given text)
  | [], some path => .ok (.file path)
  | [], none => .ok .input

/-- The command that the arguments behind a verb make. -/
def commandOf (verb : Verb) (g : Given) : Except Refusal Command :=
  match verb with
  | .new => (requiredWord g).map .create
  | .load => (requiredPath g).map .load
  | .query => (querySource g).map fun source => .query source (g.has .json)
  | .repl => .ok .dialogue
  | .symbols => .ok .symbols
  | .gc => .ok .collect
  | .reset => .ok (.reset (g.has .confirmed))

/-- The settings from the options before and behind a command and from the environment. -/
def settingsOf (environment : Settings) (general own : Given) : Except Refusal Settings :=
  if environment.store = some "" && !(general.has .store && own.has .store) then
    .error (.emptyValue .store)
  else
    let pick (key : OptionKey) (last : Option String) : Option String :=
      ((own.value? key).or (general.value? key)).or last
    .ok ⟨pick .store environment.store, pick .filter environment.filter⟩

/-- What follows the word `help`: nothing, or one command. -/
def helpOn : List String → Halt
  | [] => .help
  | [word] =>
    if word = "help" || (Verb.ofLabel? word).isSome then .help else .refused (.unknownCommand word)
  | word :: other :: _ =>
    .refused (.unknownCommand (if (Verb.ofLabel? word).isSome then other else word))

/-- Reads all arguments. -/
def Invocation.read (environment : Settings) (arguments : List String) :
    Except Halt Invocation := do
  let (general, rest) ← readGeneral .nothing arguments
  match rest with
  | [] => .error (.refused .missingCommand)
  | word :: rest =>
    if word = "help" then .error (helpOn rest)
    else
      match Verb.ofLabel? word with
      | none => .error (.refused (.unknownCommand word))
      | some verb =>
        let own ← readOwn verb .nothing rest
        let command ← (commandOf verb own).mapError .refused
        let settings ← (settingsOf environment general own).mapError .refused
        pure ⟨settings, command⟩

end Provenance.CommandLine
