import ScriptMacros.Proofs.Outline
import ScriptMacros.Proofs.Run.Agreement

namespace ScriptMacros

/-- The tag that a definition has when the definitions in the file with the given name are tagged. -/
def Definition.retag (source : Text) (d : Definition) : Definition :=
  if d.location.file = source then { d with tag := some source } else d

def Macro.retag (source : Text) (m : Macro) : Macro :=
  { m with definitions := m.definitions.map (·.retag source) }

def Registration.retag (source : Text) (r : Registration) : Registration :=
  { r with definition := r.definition.retag source }

def MacroTable.retag (source : Text) (t : MacroTable) : MacroTable where
  macros := t.macros.map (·.retag source)
  nodup := by
    rw [List.map_map]
    exact t.nodup

def Progress.retag (source : Text) (g : Progress) : Progress := { g with macros := g.macros.retag source }

def Halt.retag (source : Text) (halt : Halt) : Halt := { halt with progress := halt.progress.retag source }

variable {source : Text}

theorem Definition.value_retag (d : Definition) : (d.retag source).value = d.value := by
  rw [retag]
  split <;> rfl

theorem Definition.location_retag (d : Definition) : (d.retag source).location = d.location := by
  rw [retag]
  split <;> rfl

theorem Registration.fresh_retag (r : Registration) : (r.retag source).fresh = r.fresh.retag source := by
  rw [fresh, fresh, retag]
  dsimp only
  rw [Definition.location_retag]
  rfl

theorem Macro.extend_retag (m : Macro) (d : Definition) :
    (m.retag source).extend (d.retag source) = (m.extend d).retag source := by
  rw [extend, extend, retag, retag, List.map_append]
  rfl

theorem registerIn_retag (r : Registration) (ms : List Macro) :
    registerIn (r.retag source) (ms.map (·.retag source)) = (registerIn r ms).map (·.retag source) := by
  induction ms with
  | nil =>
    rw [List.map_nil, registerIn, registerIn, Registration.fresh_retag]
    rfl
  | cons m ms ih =>
    rw [List.map_cons, registerIn, registerIn]
    by_cases hname : m.name = r.name
    · rw [if_pos hname, if_pos (show (m.retag source).name = (r.retag source).name from hname), List.map_cons]
      rw [← Macro.extend_retag]
      rfl
    · rw [if_neg hname, if_neg (show ¬(m.retag source).name = (r.retag source).name from hname), List.map_cons, ih]

namespace MacroTable

theorem define_retag (t : MacroTable) (r : Registration) :
    (t.retag source).define (r.retag source) = (t.define r).retag source := by
  simp only [define, retag, registerIn_retag]

theorem outline_retag (t : MacroTable) : (t.retag source).outline = t.outline := by
  rw [outline, outline, retag, List.map_map]
  apply List.map_congr_left
  intro m _
  simp [Macro.outline, Macro.retag, Definition.value_retag]

theorem expand_retag (t : MacroTable) (limit : Limit) (line : Text) :
    (t.retag source).expand limit line = t.expand limit line :=
  expand_congr t.outline_retag limit line

end MacroTable

theorem Progress.define_retag {tagged : Bool} {place : Location} (h : tagged = true ∨ place.file = source)
    (g : Progress) (value : Text) (d : Declaration) :
    (g.retag source).define place true value d = (g.define place tagged value d).retag source := by
  rw [define, define, retag, retag]
  dsimp only
  rw [← MacroTable.define_retag, Registration.retag, Definition.retag]
  dsimp only
  by_cases hp : place.file = source
  · rw [if_pos hp, if_pos rfl, hp]
  · obtain rfl := h.resolve_right hp
    rw [if_neg hp]

namespace Project

def retagged {α β : Type} (source : Text) (k : α → β) : Except Halt α → Except Halt β
  | .ok a => .ok (k a)
  | .error halt => .error (halt.retag source)

section

variable {α β γ δ : Type}

theorem retagged_map {k : α → β} {k' : γ → δ} {f : α → γ} {f' : β → δ} (h : ∀ a, f' (k a) = k' (f a))
    (x : Except Halt α) : (retagged source k x).map f' = retagged source k' (x.map f) := by
  cases x with
  | ok a => exact congrArg _ (h a)
  | error halt => rfl

theorem retagged_bind {k : α → β} {k' : γ → δ} {f : α → Except Halt γ} {f' : β → Except Halt δ}
    (h : ∀ a, f' (k a) = retagged source k' (f a)) (x : Except Halt α) :
    (retagged source k x).bind f' = retagged source k' (x.bind f) := by
  cases x with
  | ok a => exact h a
  | error halt => rfl

end

variable {p : Project} {active : List Address} {tagged : Bool} {place : Location} {g : Progress}

def NestedRetags (p : Project) (active : List Address) (source : Text) : Prop :=
  ∀ i t a ha hf g, p.nested active i t a ha hf (g.retag source) =
    retagged source (fun r => (r.1, r.2.retag source)) (p.nested active i t a ha hf g)

theorem enter_retag (hn : NestedRetags p active source) (i : Include) :
    p.enter active (p.nested active) place i (g.retag source) =
      retagged source (·.retag source) (p.enter active (p.nested active) place i g) := by
  rw [enter, enter]
  cases p.entry active i with
  | absent => rfl
  | circular a => rfl
  | unusable f => rfl
  | text t a ha hf =>
    dsimp only
    rw [hn]
    apply retagged_map
    exact fun _ => rfl

theorem applyDirective_retag (hn : NestedRetags p active source) (h : tagged = true ∨ place.file = source)
    (d : Directive) :
    p.applyDirective active (p.nested active) true place d (g.retag source) =
      retagged source (·.retag source) (p.applyDirective active (p.nested active) tagged place d g) := by
  rw [applyDirective_eq, applyDirective_eq]
  cases d.kind with
  | define =>
    dsimp only
    cases Declaration.parse d.value with
    | ok e => exact congrArg _ (Progress.define_retag h g d.value e)
    | error f => rfl
  | inclusion =>
    dsimp only
    cases Directive.fileName d.value with
    | error f => rfl
    | ok requested =>
      dsimp only
      cases Include.resolve p.options.prefixes p.tree requested place.file with
      | error e => rfl
      | ok i => exact enter_retag (g := g.record i) hn i
  | condition => rfl
  | unknown => rfl

theorem passLine_retag (hn : NestedRetags p active source) (h : tagged = true ∨ place.file = source) (raw : Text) :
    p.passLine active (p.nested active) true place raw (g.retag source) =
      retagged source (fun r => (r.1, r.2.retag source)) (p.passLine active (p.nested active) tagged place raw g) := by
  unfold passLine
  dsimp only
  cases Directive.ofLine? (Line.normalize raw) with
  | some d =>
    dsimp only
    rw [applyDirective_retag hn h]
    apply retagged_map
    exact fun _ => rfl
  | none =>
    dsimp only
    rw [show (g.retag source).macros = g.macros.retag source from rfl, MacroTable.expand_retag]
    cases g.macros.expand p.options.limit (Line.normalize raw) with
    | ok t => rfl
    | error f => rfl

theorem passLines_retag_of_nested (hn : NestedRetags p active source) {file : Text}
    (h : tagged = true ∨ file = source) (n : Nat) (lines : List Text) :
    p.passLines active (p.nested active) file true n lines (g.retag source) =
      retagged source (fun r => (r.1, r.2.retag source))
        (p.passLines active (p.nested active) file tagged n lines g) := by
  induction lines generalizing n g with
  | nil => rfl
  | cons raw rest ih =>
    have hplace : tagged = true ∨ (Location.mk file n 1).file = source := h
    rw [passLines_cons, passLines_cons, passLine_retag hn hplace]
    apply retagged_bind
    intro r
    rw [ih]
    apply retagged_map
    exact fun _ => rfl

theorem passLines_retag {file : Text} (h : tagged = true ∨ file = source) (n : Nat) (lines : List Text) :
    p.passLines active (p.nested active) file true n lines (g.retag source) =
      retagged source (fun r => (r.1, r.2.retag source))
        (p.passLines active (p.nested active) file tagged n lines g) := by
  -- A nested file is tagged in both runs, and leaves fewer addresses to enter.
  induction hk : p.tree.remaining active using Nat.strongRecOn generalizing active file tagged n lines g with
  | _ k ih =>
    refine passLines_retag_of_nested ?_ h n lines
    intro i t a ha hf g
    have hlt : p.tree.remaining (active ++ [a]) < k := hk ▸ FileTree.remaining_lt ha hf
    rw [nested, nested, pass_eq, pass_eq]
    exact ih _ hlt (Or.inl rfl) 1 (sourceLines t) rfl

theorem run_retag (p : Project) (source : Text) (script : Text) :
    p.run source true script =
      retagged source (fun r => (r.1, r.2.retag source)) (p.run source false script) := by
  rw [run, run]
  cases hs : FileTree.askSource source with
  | error f =>
    rw [runLines, runLines, hs]
    rfl
  | ok k =>
    have hempty : ({} : Progress) = Progress.retag source {} := rfl
    rw [runLines_eq_passLines hs, runLines_eq_passLines hs]
    conv_lhs => rw [hempty, passLines_retag (Or.inr rfl : false = true ∨ source = source)]
    apply retagged_map
    exact fun _ => rfl

end Project

end ScriptMacros
