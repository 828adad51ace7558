import UtilityCss.Config.Layer
import UtilityCss.Text.Ordered
import UtilityCss.Theme.KeyPath
import UtilityCss.Theme.Tokens
import UtilityCss.Value.Overlay

/-!
Resolving a theme. For each key the layers are walked in order: a definition replaces the running
value and an addition is merged into it. Deferred values are computed on demand and remembered; a
key that is asked for while it is being computed closes a cycle. The tokens of the store stand under
the keys of their namespaces, below what the layers define there.
-/

set_option autoImplicit false

namespace UtilityCss

open UtilityCss.Config

structure Theme where
  entries : Table Value

namespace Theme

def get? (theme : Theme) (path : String) : Option Value :=
  match splitKeyPath path with
  | .ok (first :: rest) => (Table.get? first theme.entries).bind (follow rest)
  | _ => none

def keys (theme : Theme) : List String := Table.keys theme.entries

end Theme

namespace Theme

structure Basis where
  tokens : Tokens
  sections : List (Table Setting)

inductive Progress where
  | entered
  | finished (value : Option Value)

/-- What is known about the keys, and the keys that are being computed, in the order of entry. -/
structure Memory where
  known : List (String × Progress)
  chain : List String

namespace Memory

def empty : Memory := ⟨[], []⟩

def progress? (memory : Memory) (key : String) : Option Progress :=
  (memory.known.find? fun entry => entry.1 = key).map Prod.snd

def isEntered (memory : Memory) (key : String) : Bool :=
  match memory.progress? key with
  | some .entered => true
  | _ => false

def forget (memory : Memory) (key : String) : List (String × Progress) :=
  memory.known.filter fun entry => entry.1 ≠ key

def enter (memory : Memory) (key : String) : Memory :=
  ⟨(key, .entered) :: memory.forget key, memory.chain ++ [key]⟩

def leave (memory : Memory) (key : String) : Except SettingsError (Option Value) → Memory
  | .ok value => ⟨(key, .finished value) :: memory.forget key, memory.chain.dropLast⟩
  | .error _ => ⟨memory.forget key, memory.chain.dropLast⟩

end Memory

abbrev Step (α : Type) := Memory → Except SettingsError α × Memory

def answer (ask : String → Step (Option Value)) : Query → Step Value
  | .done value => fun memory => (.ok value, memory)
  | .fail error => fun memory => (.error error, memory)
  | .ask path next => fun memory =>
    let (found, memory) := ask path memory
    answer ask (next found) memory

mutual

def evaluate (ask : String → Step (Option Value)) : Setting → Step Value
  | .literal value => fun memory => (.ok value, memory)
  | .deferred deferred => answer ask deferred.query
  | .table entries => fun memory =>
    match evaluateEntries ask entries memory with
    | (.ok values, memory) => (.ok (.table values), memory)
    | (.error error, memory) => (.error error, memory)

def evaluateEntries (ask : String → Step (Option Value)) :
    List (String × Setting) → Step (List (String × Value))
  | [] => fun memory => (.ok [], memory)
  | (key, setting) :: rest => fun memory =>
    match evaluate ask setting memory with
    | (.error error, memory) => (.error error, memory)
    | (.ok value, memory) =>
      match evaluateEntries ask rest memory with
      | (.error error, memory) => (.error error, memory)
      | (.ok values, memory) => (.ok ((key, value) :: values), memory)

end

def definition? (key : String) (part : Table Setting) : Option Setting :=
  Table.get? key part

def addition? (key : String) (part : Table Setting) : Option Setting :=
  (Table.get? extendEntry part).bind (Setting.get? key)

def apply (ask : String → Step (Option Value)) (combine : Option Value → Value → Value)
    (setting : Option Setting) (running : Option Value) : Step (Option Value) := fun memory =>
  match setting with
  | none => (.ok running, memory)
  | some setting =>
    match evaluate ask setting memory with
    | (.error error, memory) => (.error error, memory)
    | (.ok value, memory) => (.ok (some (combine running value)), memory)

/-- Folds the sections into the value of a key: within a section the definition comes before the
addition. -/
def mergeSections (ask : String → Step (Option Value)) (key : String) :
    List (Table Setting) → Option Value → Step (Option Value)
  | [], running => fun memory => (.ok running, memory)
  | part :: rest, running => fun memory =>
    match apply ask (fun _ value => value) (definition? key part) running memory with
    | (.error error, memory) => (.error error, memory)
    | (.ok running, memory) =>
      match apply ask Value.extendWith (addition? key part) running memory with
      | (.error error, memory) => (.error error, memory)
      | (.ok running, memory) => mergeSections ask key rest running memory

def sectionKeys (part : Table Setting) : List String :=
  let additions := match Table.get? extendEntry part with
    | some (.table entries) => Table.keys entries
    | _ => []
  (Table.keys part).filter (· ≠ extendEntry) ++ additions

namespace Basis

def configKeys (r : Basis) : List String := Ordered.ofList (r.sections.flatMap sectionKeys)

/-- The key whose layers a segment reads: itself, or the key of the namespace that it names. A
namespace that is read while its key is being computed sees the tokens alone. -/
def configKey? (r : Basis) (segment : String) (memory : Memory) : Option String :=
  if segment ∈ r.configKeys then some segment
  else
    let key := keyOf segment
    if isAliased segment && key ∈ r.configKeys && !memory.isEntered key then some key else none

def tokenTable? (r : Basis) (segment : String) : Option Value :=
  (r.tokens.namespaceTable? (namespaceFor segment)).map .table

def segmentValue (r : Basis) (ofTokens : String → Step (Option Value)) (segment : String) :
    Step (Option Value) := fun memory =>
  match r.configKey? segment memory with
  | none => (.ok (r.tokenTable? segment), memory)
  | some key =>
    match ofTokens key memory with
    | (.error error, memory) => (.error error, memory)
    | (.ok value, memory) => (.ok (Value.overlay? (r.tokenTable? segment) value), memory)

def valueAtPath (r : Basis) (ofTokens : String → Step (Option Value)) (path : String) :
    Step (Option Value) := fun memory =>
  match splitKeyPath path with
  | .error fault => (.error fault.error, memory)
  | .ok [] => (.ok none, memory)
  | .ok (first :: rest) =>
    match r.segmentValue ofTokens first memory with
    | (.error error, memory) => (.error error, memory)
    | (.ok value, memory) => (.ok (value.bind (follow rest)), memory)

/-- The value that the layers give a key. Keys that are being computed are distinct keys of the
layers, so a depth of their number is never exhausted. -/
def valueOfKey (r : Basis) : Nat → String → Step (Option Value)
  | depth, key => fun memory =>
    match memory.progress? key with
    | some (.finished value) => (.ok value, memory)
    | some .entered => (.error (.circularReference (memory.chain ++ [key])), memory)
    | none =>
      match depth with
      | 0 => (.error (.circularReference (memory.chain ++ [key])), memory)
      | depth + 1 =>
        -- Questions are answered while the key is still being computed.
        let ask := r.valueAtPath (r.valueOfKey depth)
        let (result, after) := mergeSections ask key r.sections none (memory.enter key)
        (result, after.leave key result)

def depth (r : Basis) : Nat := r.configKeys.length + 1

def find (r : Basis) (segment : String) : Step (Option Value) :=
  r.segmentValue (r.valueOfKey r.depth) segment

def get (r : Basis) (path : String) : Step (Option Value) :=
  r.valueAtPath (r.valueOfKey r.depth) path

def keys (r : Basis) : List String :=
  Ordered.ofList (r.configKeys ++ r.tokens.namespaces.map keyOf)

def collect (r : Basis) : List String → Step (Table Value)
  | [] => fun memory => (.ok [], memory)
  | key :: rest => fun memory =>
    match r.find key memory with
    | (.error error, memory) => (.error error, memory)
    | (.ok value, memory) =>
      match r.collect rest memory with
      | (.error error, memory) => (.error error, memory)
      | (.ok values, memory) =>
        (.ok (match value with
          | some value => (key, value) :: values
          | none => values), memory)

def sectionsOf : Nat → Stack → Except SettingsError (List (Table Setting))
  | _, [] => .ok []
  | index, layer :: rest =>
    match layer.theme index with
    | .error error => .error error
    | .ok found => (sectionsOf (index + 1) rest).map fun sections => found.toList ++ sections

def ofLayers (tokens : Tokens) (stack : Stack) : Except SettingsError Basis :=
  (sectionsOf 0 stack).map fun sections => ⟨tokens, sections⟩

end Basis

def ofTokens (tokens : Tokens) (stack : Stack) : Except SettingsError Theme :=
  match Basis.ofLayers tokens stack with
  | .error error => .error error
  | .ok r => ((r.collect r.keys Memory.empty).1).map Theme.mk

end Theme

end UtilityCss
