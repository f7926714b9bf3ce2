import ScriptMacros.Run.Session

/-!
Failures on their way out of nested files. Each line that they pass looks at them, but the line that failed first has
already given a place to those that had none, so the lines around hand them on as they are.
-/

namespace ScriptMacros

theorem Failure.located_located (inner outer : Location) (f : Failure) :
    (f.located inner).located outer = f.located inner := by
  cases f with
  | directive f place => cases place <;> rfl
  | _ => rfl

/-- A halt that no line changes any more. -/
def Halt.Settled (h : Halt) : Prop := ∀ place, h.located place = h

theorem Halt.settled_located (place : Location) (h : Halt) : (h.located place).Settled := by
  intro outer
  rw [located, located, Failure.located_located]

theorem Halt.settled_ofRead (requested : Text) (place : Location) (f : ReadFault) (active : List Address)
    (g : Progress) : Halt.Settled ⟨.ofRead requested place f, active, g⟩ := by
  intro outer
  rw [located, Failure.ofRead]
  split <;> rfl

namespace Project

variable {p : Project} {active : List Address} {entering : Entering p active} {tagged : Bool} {place : Location}
  {source : Text} {raw : Text} {lines : List Text} {n : Nat} {g : Progress} {halt : Halt}

theorem settled_of_passLine (h : p.passLine active entering tagged place raw g = .error halt) : halt.Settled := by
  unfold passLine at h
  dsimp only at h
  split at h
  · next d _ =>
    rw [applyDirective] at h
    cases hd : p.dispatch active entering tagged place d g with
    | ok g' =>
      rw [hd] at h
      contradiction
    | error inner =>
      rw [hd] at h
      cases h
      exact inner.settled_located place
  · split at h
    · contradiction
    · cases h
      exact fun _ => rfl

theorem settled_of_passLines (h : p.passLines active entering source tagged n lines g = .error halt) :
    halt.Settled := by
  induction lines generalizing n g with
  | nil => contradiction
  | cons raw rest ih =>
    rw [passLines] at h
    split at h
    · next hline =>
      cases h
      exact settled_of_passLine hline
    · split at h
      · next hrest =>
        cases h
        exact ih hrest
      · contradiction

end Project

variable {p : Project} {active : List Address}

class Entering.Settles (entering : Entering p active) : Prop where
  settled : ∀ {i t a ha hf g halt}, entering i t a ha hf g = .error halt → halt.Settled

namespace Project

instance nested_settles : Entering.Settles (p.nested active) where
  settled h := by
    rw [nested, pass_eq] at h
    exact settled_of_passLines h

variable {entering : Entering p active} [entering.Settles]

theorem enter_located (place : Location) (i : Include) (g : Progress) (outer : Location) :
    (p.enter active entering place i g).mapError (·.located outer) = p.enter active entering place i g := by
  rw [enter]
  split
  · rfl
  · rfl
  · next f _ => exact congrArg Except.error (Halt.settled_ofRead i.requested place f active g outer)
  · next t a ha hf _ =>
    cases hn : entering i t a ha hf g with
    | ok r => rfl
    | error halt => exact congrArg Except.error (Entering.Settles.settled hn outer)

theorem applyDirective_eq (tagged : Bool) (place : Location) (d : Directive) (g : Progress) :
    p.applyDirective active entering tagged place d g =
      match d.kind with
      | .define =>
        match Declaration.parse d.value with
        | .ok declaration => .ok (g.define place tagged d.value declaration)
        | .error f => .error ⟨.directive f (some place), active, g⟩
      | .inclusion =>
        match Directive.fileName d.value with
        | .error f => .error ⟨.directive f (some place), active, g⟩
        | .ok requested =>
          match Include.resolve p.options.prefixes p.tree requested place.file with
          | .error (f, path) => .error ⟨.unreadable (.path f path), active, g⟩
          | .ok i => p.enter active entering place i (g.record i)
      | .condition | .unknown => .ok g := by
  rw [applyDirective, dispatch]
  cases d.kind with
  | define => cases Declaration.parse d.value <;> rfl
  | inclusion =>
    cases Directive.fileName d.value with
    | error f => rfl
    | ok requested =>
      dsimp only
      cases Include.resolve p.options.prefixes p.tree requested place.file with
      | error r => rfl
      | ok i => exact enter_located place i (g.record i) place
  | condition => rfl
  | unknown => rfl

end Project

end ScriptMacros
