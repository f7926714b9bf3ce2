import ScriptMacros.Run.Session
import ScriptMacros.Text.Quoted

/-!
What happens during a run, as a list of events. The events are told from the outside: the progress before each
line is the one of the pass itself.
-/

namespace ScriptMacros

inductive Event where
  | defined (name : Text) (place : Location)
  | redefined (name : Text) (place : Location) (count : Nat)
  | resolved (i : Include)
  | skipped (i : Include)
  | unevaluated (keyword : Text) (place : Location)
  | unknownWord (word : Text) (place : Location)
  | replaced (s : Expansion.Step)
  | failed (place : Location)
deriving DecidableEq, Repr

def Event.message : Event → Text
  | defined name place => "Defined macro '".toText ++ name ++ "' at ".toText ++ place.toText
  | redefined name place count =>
    "Redefined macro '".toText ++ name ++ "' at ".toText ++ place.toText ++ " (definition #".toText ++
      Text.ofNat count ++ [.char ')']
  | resolved i =>
    "Resolved include '".toText ++ i.requested ++ "' from ".toText ++ i.source ++ " -> ".toText ++
      i.path.toText ++ (if i.found then "" else " (missing)").toText
  | skipped i =>
    "Include '".toText ++ i.requested ++ "' not found at ".toText ++ i.path.toText ++ ", skipping".toText
  | unevaluated keyword place =>
    place.toText ++ ": #".toText ++ keyword ++ " is not evaluated, ignoring".toText
  | unknownWord word place =>
    place.toText ++ ": unknown directive '#".toText ++ word ++ "', ignoring".toText
  | replaced s =>
    "Expanded '".toText ++ s.name ++ "': ".toText ++ Text.quoted s.before ++ " -> ".toText ++ Text.quoted s.after
  | failed place =>
    "Failed to parse line ".toText ++ Text.ofInt place.line ++ " of ".toText ++ place.file

namespace Project

variable (p : Project) (active : List Address)

abbrev Telling (p : Project) (active : List Address) :=
  Include → Text → (a : Address) → a ∉ active → a ∈ p.tree.addresses → Progress → List Event

def eventsOfInclude (telling : Telling p active) (i : Include) (g : Progress) : List Event :=
  match p.entry active i with
  | .absent => [.skipped i]
  | .circular _ | .unusable _ => []
  | .text t a ha hf => telling i t a ha hf g

def eventsOfDirective (telling : Telling p active) (place : Location) (d : Directive) (g : Progress) :
    List Event :=
  match d.kind with
  | .define =>
    match Declaration.parse d.value with
    | .error _ => []
    | .ok declaration =>
      match g.macros.get? declaration.name with
      | none => [.defined declaration.name place]
      | some m => [.redefined declaration.name place (m.definitions.length + 1)]
  | .inclusion =>
    match Directive.fileName d.value with
    | .error _ => []
    | .ok requested =>
      match Include.resolve p.options.prefixes p.tree requested place.file with
      | .error _ => []
      | .ok i => .resolved i :: p.eventsOfInclude active telling i (g.record i)
  | .condition => [.unevaluated d.keyword place]
  | .unknown => [.unknownWord d.word place]

def eventsOfLine (telling : Telling p active) (place : Location) (raw : Text) (g : Progress)
    (fails : Bool) : List Event :=
  let line := Line.normalize raw
  match Directive.ofLine? line with
  | some d => p.eventsOfDirective active telling place d g
  | none =>
    let replacements := Expansion.steps g.macros.byLength (p.options.limit.allowed?.getD 0) line
    replacements.map .replaced ++ if fails then [.failed place] else []

def eventsOfLines (telling : Telling p active) (entering : Entering p active) (source : Text) (tagged : Bool) :
    (number : Nat) → List Text → Progress → List Event
  | _, [], _ => []
  | n, raw :: rest, g =>
    let tell := p.eventsOfLine active telling ⟨source, n, 1⟩ raw g
    match p.passLine active entering tagged ⟨source, n, 1⟩ raw g with
    | .error _ => tell true
    | .ok (_, g) => tell false ++ eventsOfLines telling entering source tagged (n + 1) rest g

def eventsWithin : (bound : Nat) → (active : List Address) → p.tree.remaining active ≤ bound →
    (source : Text) → (tagged : Bool) → List Text → Progress → List Event
  | 0, active, h, source, tagged, lines, g =>
    p.eventsOfLines active (fun _ _ _ ha hf _ => absurd (FileTree.remaining_lt ha hf) (by omega))
      (p.nested active) source tagged 1 lines g
  | bound + 1, active, h, source, tagged, lines, g =>
    p.eventsOfLines active
      (fun i t a ha hf g =>
        eventsWithin bound (active ++ [a]) (by have := FileTree.remaining_lt ha hf; omega)
          i.path.toText true (sourceLines t) g)
      (p.nested active) source tagged 1 lines g

def events (source : Text) (tagged : Bool) (script : Text) : List Event :=
  let active := [(Path.ofText source).address p.tree.here]
  match FileTree.askSource source with
  | .error _ => []
  | .ok _ =>
    p.eventsWithin p.tree.addressBound active (p.tree.remaining_le active) source tagged (sourceLines script) {}

end Project

end ScriptMacros
