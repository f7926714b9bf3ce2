import ScriptMacros.Run.Basic

/-!
The pass over the lines of a file and of all files that it includes. A file cannot be entered while it is active,
so the addresses left to enter become fewer with each nested file (`FileTree.remaining_lt`), and the pass ends.
-/

namespace ScriptMacros

def sourceLines (t : Text) : List Text := Text.lines (t.filter (· ≠ .char '\r'))

abbrev Pass := Except Halt (List Text × Progress)

abbrev Entering (p : Project) (active : List Address) :=
  Include → Text → (a : Address) → a ∉ active → a ∈ p.tree.addresses → Progress → Pass

namespace Progress

def define (g : Progress) (place : Location) (tagged : Bool) (value : Text) (d : Declaration) : Progress :=
  { g with macros := g.macros.define {
      name := d.name
      parameters := d.parameters
      definition := {
        value := d.body
        location := place
        tag := if tagged then some place.file else none
        endColumn := value.length + 1 } } }

def record (g : Progress) (i : Include) : Progress := { g with includes := g.includes ++ [i] }

end Progress

namespace Project

variable (p : Project) (active : List Address)

theorem mem_addresses_of_readText {path : Path} {t : Text} (h : p.readText path = .ok t) :
    path.address p.tree.here ∈ p.tree.addresses := by
  rw [readText] at h
  split at h <;> try contradiction
  split at h
  · next bytes hread => exact FileTree.mem_addresses_of_file? (FileTree.read_eq_ok hread)
  · contradiction

/-- What an inclusion leads to when some files are active: no file, one of the active files, a file that gives no
text, or a text to deal with. -/
inductive Entry (p : Project) (active : List Address) where
  | absent
  | circular (a : Address)
  | unusable (f : ReadFault)
  | text (t : Text) (a : Address) (inactive : a ∉ active) (isFile : a ∈ p.tree.addresses)

def entry (i : Include) : Entry p active :=
  if i.found then
    let a := i.path.address p.tree.here
    if ha : a ∈ active then .circular a
    else
      match h : p.readText i.path with
      | .error f => .unusable f
      | .ok t => .text t a ha (p.mem_addresses_of_readText h)
  else .absent

def enter (entering : Entering p active) (place : Location) (i : Include) (g : Progress) : Except Halt Progress :=
  match p.entry active i with
  | .absent => .ok g
  | .circular a => .error ⟨.circular i.requested place (active ++ [a]), active, g⟩
  | .unusable f => .error ⟨.ofRead i.requested place f, active, g⟩
  | .text t a ha hf => (entering i t a ha hf g).map (·.2)

def dispatch (entering : Entering p active) (tagged : Bool) (place : Location) (d : Directive)
    (g : Progress) : Except Halt Progress :=
  match d.kind with
  | .define =>
    match Declaration.parse d.value with
    | .ok declaration => .ok (g.define place tagged d.value declaration)
    | .error f => .error ⟨.directive f none, active, g⟩
  | .inclusion =>
    match Directive.fileName d.value with
    | .error f => .error ⟨.directive f none, active, g⟩
    | .ok requested =>
      match Include.resolve p.options.prefixes p.tree requested place.file with
      | .error (f, path) => .error ⟨.unreadable (.path f path), active, g⟩
      | .ok i => p.enter active entering place i (g.record i)
  | .condition | .unknown => .ok g

/-- Applies a directive. All that goes wrong in it comes by here, what went wrong in a file that it includes as well. -/
def applyDirective (entering : Entering p active) (tagged : Bool) (place : Location) (d : Directive)
    (g : Progress) : Except Halt Progress :=
  (p.dispatch active entering tagged place d g).mapError (·.located place)

def passLine (entering : Entering p active) (tagged : Bool) (place : Location) (raw : Text) (g : Progress) :
    Except Halt (Text × Progress) :=
  let line := Line.normalize raw
  match Directive.ofLine? line with
  | some d => (p.applyDirective active entering tagged place d g).map ([], ·)
  | none =>
    match g.macros.expand p.options.limit line with
    | .ok t => .ok (t, g)
    | .error f => .error ⟨.expansion f place line, active, g⟩

def passLines (entering : Entering p active) (source : Text) (tagged : Bool) :
    (number : Nat) → List Text → Progress → Pass
  | _, [], g => .ok ([], g)
  | n, raw :: rest, g =>
    match p.passLine active entering tagged ⟨source, n, 1⟩ raw g with
    | .error halt => .error halt
    | .ok (line, g) =>
      match passLines entering source tagged (n + 1) rest g with
      | .error halt => .error halt
      | .ok (lines, g) => .ok (line :: lines, g)

/-- Deals with a file when at most `bound` further files can be entered. Definitions in nested files always carry
the name of their file. -/
def passWithin : (bound : Nat) → (active : List Address) → p.tree.remaining active ≤ bound →
    (source : Text) → (tagged : Bool) → List Text → Progress → Pass
  | 0, active, h, source, tagged, lines, g =>
    p.passLines active (fun _ _ _ ha hf _ => absurd (FileTree.remaining_lt ha hf) (by omega))
      source tagged 1 lines g
  | bound + 1, active, h, source, tagged, lines, g =>
    p.passLines active
      (fun i t a ha hf g =>
        passWithin bound (active ++ [a]) (by have := FileTree.remaining_lt ha hf; omega)
          i.path.toText true (sourceLines t) g)
      source tagged 1 lines g

theorem passWithin_congr (b b' : Nat) (active : List Address) (h : p.tree.remaining active ≤ b)
    (h' : p.tree.remaining active ≤ b') (source : Text) (tagged : Bool) (lines : List Text) (g : Progress) :
    p.passWithin b active h source tagged lines g = p.passWithin b' active h' source tagged lines g := by
  induction b generalizing b' active source tagged lines g with
  | zero =>
    cases b' with
    | zero => rfl
    | succ b' =>
      rw [passWithin]
      congr 1
      funext i t a ha hf
      exact absurd (FileTree.remaining_lt ha hf) (by omega)
  | succ b ih =>
    cases b' with
    | zero =>
      simp only [passWithin]
      congr 1
      funext i t a ha hf
      exact absurd (FileTree.remaining_lt ha hf) (by omega)
    | succ b' =>
      rw [passWithin]
      congr 1
      funext i t a ha hf g
      exact ih b' _ _ _ _ _ _ _

def pass (source : Text) (tagged : Bool) (lines : List Text) (g : Progress) : Pass :=
  p.passWithin p.tree.addressBound active (p.tree.remaining_le active) source tagged lines g

def nested : Entering p active :=
  fun i t a _ _ g => p.pass (active ++ [a]) i.path.toText true (sourceLines t) g

theorem pass_eq (source : Text) (tagged : Bool) (lines : List Text) (g : Progress) :
    p.pass active source tagged lines g = p.passLines active (p.nested active) source tagged 1 lines g := by
  rw [pass]
  rw [p.passWithin_congr _ (p.tree.addressBound + 1) active _ (Nat.le_succ_of_le (p.tree.remaining_le active)),
    passWithin]
  rfl

end Project

end ScriptMacros
