import ScriptMacros.Diagnostic
import ScriptMacros.Directive
import ScriptMacros.Encoding.Name
import ScriptMacros.Expansion
import ScriptMacros.Include
import ScriptMacros.Line
import ScriptMacros.Options.Basic

namespace ScriptMacros

structure Project where
  options : Options := {}
  tree : FileTree
  codecs : Codecs := .four

structure Progress where
  macros : MacroTable := .empty
  includes : List Include := []
deriving DecidableEq

inductive ReadFault where
  | path (f : FileTree.Fault) (p : Path)
  | encoding (f : Encoding.NameFault)
  | bytes (f : Codec.Fault)
deriving DecidableEq, Repr

namespace ReadFault

def message : ReadFault → Text
  | path f p => f.message p.toText
  | encoding f => f.message
  | bytes f => f.message

def isForeseen : ReadFault → Bool
  | path f _ => f.isOfSystem
  | bytes (.bytes _) => true
  | _ => false

end ReadFault

inductive Failure where
  | directive (f : Directive.Fault) (place : Option Location)
  | circular (requested : Text) (place : Location) (chain : List Address)
  | unusable (requested : Text) (place : Location) (f : ReadFault)
  | expansion (f : Expansion.Fault) (place : Location) (line : Text)
  | unreadable (f : ReadFault)
  | source (f : FileTree.Fault) (name : Text)
deriving DecidableEq, Repr

namespace Failure

def diagnostic? : Failure → Option Diagnostic
  | directive f place => some { message := f.message, location := place }
  | circular requested place chain =>
    some (.inclusion requested "circular include detected".toText (some place) (chain.map Address.toText))
  | unusable requested place f => some (.inclusion requested f.message (some place) [])
  | expansion (.recursion name count) place line => some (.recursion name count (some place) (some line))
  | expansion .noLimit place line => some {
      message := "unexpected error while expanding macros: ".toText ++
        "'>' not supported between instances of 'int' and 'NoneType'".toText
      location := some place
      quotedLine := some line }
  | unreadable _ | source .. => none

def message (f : Failure) : Text :=
  match f.diagnostic?, f with
  | some d, _ => d.render
  | none, unreadable f => f.message
  | none, source f name => f.message name
  | none, _ => []

def ofRead (requested : Text) (place : Location) (f : ReadFault) : Failure :=
  if f.isForeseen then unusable requested place f else unreadable f

/-- What a line makes of a failure on its way out: only that of a directive without a place is changed, and gets the
place of the line. -/
def located (place : Location) : Failure → Failure
  | directive f none => directive f (some place)
  | f => f

end Failure

structure Halt where
  failure : Failure
  active : List Address
  progress : Progress
deriving DecidableEq

def Halt.located (place : Location) (h : Halt) : Halt := { h with failure := h.failure.located place }

namespace Project

def codec (p : Project) : Except Encoding.NameFault Codec := p.codecs.find p.options.encoding

def decode (p : Project) (bytes : List UInt8) : Except ReadFault Text :=
  match p.codec with
  | .error f => .error (.encoding f)
  | .ok c =>
    match c.decode bytes with
    | .ok t => .ok (Encoding.unifyLineEnds t)
    | .error f => .error (.bytes f)

/-- The text of a file. A name of an encoding that cannot be looked up is noticed before the file is opened, and an
unknown one after that. -/
def readText (p : Project) (path : Path) : Except ReadFault Text :=
  match Encoding.soundName p.options.encoding with
  | .error f => .error (.encoding f)
  | .ok _ =>
    match p.tree.read path with
    | .ok bytes => p.decode bytes
    | .error f => .error (.path f path)

end Project

end ScriptMacros
