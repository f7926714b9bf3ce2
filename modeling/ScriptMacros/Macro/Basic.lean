import ScriptMacros.Location

namespace ScriptMacros

/-- One definition of a macro. The tag names the file of definitions whose origin is recorded; the end column is
the one just past the text of the directive. -/
structure Definition where
  value : Text
  location : Location
  tag : Option Text := none
  endColumn : Int := 1
deriving DecidableEq, Repr

structure Macro where
  name : Text
  parameters : Option (List Text) := none
  source : Text := "<input>".toText
  line : Int := 0
  definitions : List Definition := []
deriving DecidableEq, Repr

namespace Macro

def body (m : Macro) : Text := (m.definitions.getLast?.map (·.value)).getD []

def isFunctionLike (m : Macro) : Bool := m.parameters.isSome

def extend (m : Macro) (d : Definition) : Macro := { m with definitions := m.definitions ++ [d] }

@[simp] theorem name_extend (m : Macro) (d : Definition) : (m.extend d).name = m.name := rfl

@[simp] theorem body_extend (m : Macro) (d : Definition) : (m.extend d).body = d.value := by
  simp [body, extend]

end Macro

structure Registration where
  name : Text
  parameters : Option (List Text)
  definition : Definition
deriving DecidableEq, Repr

def Registration.fresh (r : Registration) : Macro where
  name := r.name
  parameters := r.parameters
  source := r.definition.location.file
  line := r.definition.location.line
  definitions := [r.definition]

end ScriptMacros
