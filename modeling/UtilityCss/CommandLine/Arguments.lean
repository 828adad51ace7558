import UtilityCss.Project.Places
import UtilityCss.Text.Cut

set_option autoImplicit false

namespace UtilityCss.CommandLine

inductive Command where
  | build (paths : ProjectPaths)
  | watch (paths : ProjectPaths)
  | candidates (root input : Option Path) (json : Bool)
  deriving DecidableEq, Repr

structure Invocation where
  logDirectory : Option Path
  command : Command
  deriving DecidableEq, Repr

inductive Stop where
  | version
  | help
  | usage (details : String)
  deriving DecidableEq, Repr

inductive OptionKind where
  | value
  | flag
  | stop (reason : Stop)
  deriving DecidableEq, Repr

structure OptionName where
  long : String
  short : Option Char
  kind : OptionKind
  deriving DecidableEq, Repr

abbrev Given := List (String × String)

namespace Given

def get? (given : Given) (name : String) : Option String :=
  (given.find? fun entry => entry.1 = name).map Prod.snd

def path? (given : Given) (name : String) : Option Path := (given.get? name).map Path.mk

def add (given : Given) (name value : String) : Except Stop Given :=
  if (given.get? name).isSome then .error (.usage ("'--" ++ name ++ "' is given twice"))
  else .ok (given ++ [(name, value)])

def addValue (given : Given) (name value : String) : Except Stop Given :=
  if value = "" then .error (.usage ("'--" ++ name ++ "' needs a value")) else given.add name value

end Given

abbrev Step := Except Stop (Given × Option String)

def unknown (text : String) : Stop := .usage ("unexpected argument '" ++ text ++ "'")

def readLong (names : List OptionName) (given : Given) (text : List Char) : Step :=
  let (name, value) := match Text.splitOnce '=' text with
    | some (name, value) => (String.ofList name, some (String.ofList value))
    | none => (String.ofList text, none)
  match names.find? fun option => option.long = name, value with
  | none, _ => .error (unknown ("--" ++ name))
  | some option, some value =>
    match option.kind with
    | .value => do return (← given.addValue option.long value, none)
    | _ => .error (unknown value)
  | some option, none =>
    match option.kind with
    | .value => .ok (given, some option.long)
    | .flag => do return (← given.add option.long "", none)
    | .stop reason => .error reason

def readShort (names : List OptionName) : Given → List Char → Step
  | given, [] => .ok (given, none)
  | given, c :: rest =>
    match names.find? fun option => option.short = some c with
    | none => .error (unknown ("-" ++ String.singleton c))
    | some option =>
      match option.kind, rest with
      | .value, [] => .ok (given, some option.long)
      | .value, '=' :: value => do return (← given.addValue option.long (String.ofList value), none)
      | .value, value => do return (← given.addValue option.long (String.ofList value), none)
      | .flag, rest => do readShort names (← given.add option.long "") rest
      | .stop reason, _ => .error reason

def looksLikeOption (text : String) : Bool :=
  match text.toList with
  | '-' :: _ :: _ => true
  | _ => false

/-- Reads options up to the first argument that is none, and gives the rest. Behind two dashes
nothing may follow, because no command has operands. -/
def readOptions (names : List OptionName) : Given → List String → Except Stop (Given × List String)
  | given, [] => .ok (given, [])
  | given, text :: rest =>
    if !looksLikeOption text then .ok (given, text :: rest)
    else
      match text.toList, rest with
      | ['-', '-'], [] => .ok (given, [])
      | ['-', '-'], next :: _ => .error (unknown next)
      | chars, rest => do
        let (given, pending) ← match chars with
          | '-' :: '-' :: name => readLong names given name
          | _ => readShort names given (chars.drop 1)
        match pending, rest with
        | none, rest => readOptions names given rest
        | some name, [] => .error (.usage ("'--" ++ name ++ "' needs a value"))
        | some name, value :: rest =>
          if looksLikeOption value then .error (.usage ("'--" ++ name ++ "' needs a value"))
          else readOptions names (← given.addValue name value) rest
termination_by _ args => args.length

def logDir : OptionName := ⟨"log-dir", none, .value⟩

def help : OptionName := ⟨"help", some 'h', .stop .help⟩

def version : OptionName := ⟨"version", some 'V', .stop .version⟩

def input : OptionName := ⟨"input", some 'i', .value⟩

def output : OptionName := ⟨"output", some 'o', .value⟩

def root : OptionName := ⟨"root", some 'r', .value⟩

def json : OptionName := ⟨"json", none, .flag⟩

def readAll (names : List OptionName) (args : List String) : Except Stop Given := do
  match ← readOptions names [] args with
  | (given, []) => return given
  | (_, text :: _) => throw (unknown text)

def projectPaths (given : Given) : Except Stop ProjectPaths :=
  match given.path? input.long with
  | some path => .ok ⟨path, given.path? output.long, given.path? root.long⟩
  | none => .error (.usage "'--input' is required")

def commandNames : List String := ["build", "watch", "candidates", "help"]

def invocation (before given : Given) (command : Command) : Invocation :=
  ⟨(given.path? logDir.long).or (before.path? logDir.long), command⟩

def parse (args : List String) : Except Stop Invocation := do
  let (before, rest) ← readOptions [logDir, help, version] [] args
  let sessionNames := [logDir, help, input, output, root]
  match rest with
  | "build" :: rest =>
    let given ← readAll sessionNames rest
    return invocation before given (.build (← projectPaths given))
  | "watch" :: rest =>
    let given ← readAll sessionNames rest
    return invocation before given (.watch (← projectPaths given))
  | "candidates" :: rest =>
    let given ← readAll [logDir, help, input, root, json] rest
    let command := Command.candidates (given.path? root.long) (given.path? input.long)
      (given.get? json.long).isSome
    return invocation before given command
  | ["help"] => throw .help
  | ["help", name] => throw (if name ∈ commandNames then .help else unknown name)
  | text :: _ => throw (unknown text)
  | [] => throw (.usage "a command is required")

end UtilityCss.CommandLine
