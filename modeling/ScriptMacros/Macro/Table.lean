import ScriptMacros.Macro.Basic
import ScriptMacros.Order

namespace ScriptMacros

def registerIn (r : Registration) : List Macro → List Macro
  | [] => [r.fresh]
  | m :: ms => if m.name = r.name then m.extend r.definition :: ms else m :: registerIn r ms

theorem names_registerIn (r : Registration) (ms : List Macro) :
    (registerIn r ms).map (·.name) =
      if r.name ∈ ms.map (·.name) then ms.map (·.name) else ms.map (·.name) ++ [r.name] := by
  induction ms with
  | nil => simp [registerIn, Registration.fresh]
  | cons m ms ih =>
    by_cases h : m.name = r.name
    · simp [registerIn, h]
    · have h' : r.name ≠ m.name := Ne.symm h
      by_cases hm : ∃ a ∈ ms, a.name = r.name <;> simp_all [registerIn]

structure MacroTable where
  macros : List Macro
  nodup : (macros.map (·.name)).Nodup
deriving DecidableEq

namespace MacroTable

def empty : MacroTable := ⟨[], List.nodup_nil⟩

instance : Inhabited MacroTable := ⟨empty⟩

def define (t : MacroTable) (r : Registration) : MacroTable where
  macros := registerIn r t.macros
  nodup := by
    rw [names_registerIn]
    split
    · exact t.nodup
    · next h => simpa [List.nodup_append, t.nodup] using h

def ofList (rs : List Registration) : MacroTable := rs.foldl define empty

def get? (t : MacroTable) (name : Text) : Option Macro := t.macros.find? (·.name = name)

def names (t : MacroTable) : List Text := t.macros.map (·.name)

/-- The macros in the order in which they are tried: longer names first, so that a name is not found inside a
longer one. -/
def byLength (t : MacroTable) : List Macro := longestFirst (·.name.length) t.macros

@[simp] theorem names_define (t : MacroTable) (r : Registration) :
    (t.define r).names = if r.name ∈ t.names then t.names else t.names ++ [r.name] :=
  names_registerIn r t.macros

end MacroTable

end ScriptMacros
