import Mathlib.Logic.Relation
import ScriptMacros.Proofs.Run.Relocating

/-!
A run step by step. Open files are kept twice: as frames, each with the lines that it has left, and as the list of
their addresses, which grows when a file is opened and loses its last entry when the lines of a file are used up. A
step deals with a directive, begins the expansion of a line, replaces one invocation, writes a line or closes a file.
-/

namespace ScriptMacros

structure Rewriting where
  raw : Text
  current : Text
  count : Nat

structure Frame where
  source : Text
  tagged : Bool
  done : List (Text × Text)
  left : List Text

namespace Frame

def place (f : Frame) : Location := ⟨f.source, (f.done.length + 1 : Nat), 1⟩

def entered (f : Frame) : Location := ⟨f.source, (f.done.length : Nat), 1⟩

def written (f : Frame) : List Text := (f.done.map (·.2)).reverse

def finish (f : Frame) (raw t : Text) (rest : List Text) : Frame := { f with done := (raw, t) :: f.done, left := rest }

end Frame

def Halt.surfaced (h : Halt) (outer : List Frame) : Halt := outer.foldl (fun h f => h.located f.entered) h

theorem Halt.Settled.surfaced {halt : Halt} (h : halt.Settled) (outer : List Frame) : halt.surfaced outer = halt := by
  induction outer with
  | nil => rfl
  | cons f outer ih => rw [Halt.surfaced, List.foldl_cons, h f.entered, ← Halt.surfaced, ih]

/-- Frames stand innermost first, addresses outermost first. The output is there when the last frame is closed; what
files inside come to is dropped. -/
structure RunState where
  stack : List Address
  frames : List Frame
  rewriting : Option Rewriting
  progress : Progress
  output : List Text

namespace Project

variable (p : Project)

def stepEnter (s : RunState) (place : Location) (i : Include) : Except Halt RunState :=
  match p.entry s.stack i with
  | .absent => .ok s
  | .circular a => .error ⟨.circular i.requested place (s.stack ++ [a]), s.stack, s.progress⟩
  | .unusable f => .error ⟨.ofRead i.requested place f, s.stack, s.progress⟩
  | .text t a _ _ =>
    .ok { s with stack := s.stack ++ [a], frames := ⟨i.path.toText, true, [], sourceLines t⟩ :: s.frames }

def stepDispatch (s : RunState) (tagged : Bool) (place : Location) (d : Directive) : Except Halt RunState :=
  match d.kind with
  | .define =>
    match Declaration.parse d.value with
    | .ok e => .ok { s with progress := s.progress.define place tagged d.value e }
    | .error f => .error ⟨.directive f none, s.stack, s.progress⟩
  | .inclusion =>
    match Directive.fileName d.value with
    | .error f => .error ⟨.directive f none, s.stack, s.progress⟩
    | .ok requested =>
      match Include.resolve p.options.prefixes p.tree requested place.file with
      | .error (f, path) => .error ⟨.unreadable (.path f path), s.stack, s.progress⟩
      | .ok i => p.stepEnter { s with progress := s.progress.record i } place i
  | .condition | .unknown => .ok s

def stepDirective (s : RunState) (tagged : Bool) (place : Location) (d : Directive) : Except Halt RunState :=
  (p.stepDispatch s tagged place d).mapError (·.located place)

def stepRewrite (s : RunState) (f : Frame) (outer : List Frame) (w : Rewriting) : Except Halt RunState :=
  let fail (e : Expansion.Fault) := .error ⟨.expansion e f.place (Line.normalize w.raw), s.stack, s.progress⟩
  match Expansion.firstInvocation? s.progress.macros.byLength w.current with
  | none => .ok { s with frames := f.finish w.raw w.current f.left :: outer, rewriting := none }
  | some (m, i) =>
    if i.result w.current = w.current then fail (.recursion m.name (w.count + 1))
    else
      match p.options.limit.allowed? with
      | none => fail .noLimit
      | some n =>
        if n < w.count + 1 then fail (.recursion m.name (w.count + 1))
        else .ok { s with rewriting := some ⟨w.raw, i.result w.current, w.count + 1⟩ }

def stepInside (s : RunState) (f : Frame) (outer : List Frame) : Except Halt RunState :=
  match s.rewriting, f.left with
  | some w, _ => p.stepRewrite s f outer w
  | none, [] => .ok { s with
      stack := s.stack.dropLast
      frames := outer
      output := if outer = [] then f.written else s.output }
  | none, raw :: rest =>
    match Directive.ofLine? (Line.normalize raw) with
    | none =>
      .ok { s with
        frames := { f with left := rest } :: outer
        rewriting := some ⟨raw, Line.normalize raw, 0⟩ }
    | some d => p.stepDirective { s with frames := f.finish raw [] rest :: outer } f.tagged f.place d

def step (s : RunState) : Except Halt RunState :=
  match s.frames with
  | [] => .ok s
  | f :: outer => (p.stepInside s f outer).mapError (·.surfaced outer)

def start (source : Text) (tagged : Bool) (script : Text) : Except Halt RunState :=
  match FileTree.askSource source with
  | .error f => .error ⟨.source f source, [], {}⟩
  | .ok _ => .ok {
      stack := [(Path.ofText source).address p.tree.here]
      frames := [⟨source, tagged, [], sourceLines script⟩]
      rewriting := none
      progress := {}
      output := [] }

def Moves (s s' : RunState) : Prop := s.frames ≠ [] ∧ p.step s = .ok s'

def Reaches : RunState → RunState → Prop := Relation.ReflTransGen p.Moves

def Visits (source : Text) (tagged : Bool) (script : Text) (s : RunState) : Prop :=
  ∃ s₀, p.start source tagged script = .ok s₀ ∧ p.Reaches s₀ s

variable {p}

theorem Visits.trans {source : Text} {tagged : Bool} {script : Text} {s t : RunState}
    (h : p.Visits source tagged script s) (hr : p.Reaches s t) : p.Visits source tagged script t := by
  obtain ⟨s₀, h₀, hs⟩ := h
  exact ⟨s₀, h₀, hs.trans hr⟩

theorem Visits.next {source : Text} {tagged : Bool} {script : Text} {s s' : RunState}
    (h : p.Visits source tagged script s) (hm : p.Moves s s') : p.Visits source tagged script s' := by
  apply h.trans
  exact .single hm

theorem Visits.invariant {source : Text} {tagged : Bool} {script : Text} {I : RunState → Prop}
    (hstart : ∀ s₀, p.start source tagged script = .ok s₀ → I s₀)
    (hstep : ∀ s s', p.Visits source tagged script s → I s → p.Moves s s' → I s') {s : RunState}
    (h : p.Visits source tagged script s) : I s := by
  obtain ⟨s₀, h₀, hr⟩ := h
  induction hr with
  | refl => exact hstart s₀ h₀
  | tail hr hm ih => exact hstep _ _ ⟨s₀, h₀, hr⟩ ih hm

structure Includes (p : Project) (s : RunState) (f : Frame) (outer : List Frame) (raw : Text) (rest : List Text)
    (i : Include) : Prop where
  idle : s.rewriting = none
  frames : s.frames = f :: outer
  left : f.left = raw :: rest
  asks : ∃ d requested, Directive.ofLine? (Line.normalize raw) = some d ∧ d.kind = .inclusion ∧
    Directive.fileName d.value = .ok requested ∧
    Include.resolve p.options.prefixes p.tree requested f.source = .ok i

variable {s s' : RunState} {place : Location}

theorem stepEnter_located (s : RunState) (place : Location) (i : Include) (outer : Location) :
    (p.stepEnter s place i).mapError (·.located outer) = p.stepEnter s place i := by
  rw [stepEnter]
  split
  · rfl
  · rfl
  · next f _ => exact congrArg Except.error (Halt.settled_ofRead i.requested place f s.stack s.progress outer)
  · rfl

theorem stepDirective_eq (s : RunState) (tagged : Bool) (place : Location) (d : Directive) :
    p.stepDirective s tagged place d =
      match d.kind with
      | .define =>
        match Declaration.parse d.value with
        | .ok e => .ok { s with progress := s.progress.define place tagged d.value e }
        | .error f => .error ⟨.directive f (some place), s.stack, s.progress⟩
      | .inclusion =>
        match Directive.fileName d.value with
        | .error f => .error ⟨.directive f (some place), s.stack, s.progress⟩
        | .ok requested =>
          match Include.resolve p.options.prefixes p.tree requested place.file with
          | .error (f, path) => .error ⟨.unreadable (.path f path), s.stack, s.progress⟩
          | .ok i => p.stepEnter { s with progress := s.progress.record i } place i
      | .condition | .unknown => .ok s := by
  rw [stepDirective, stepDispatch]
  cases d.kind with
  | define => cases Declaration.parse d.value <;> rfl
  | inclusion =>
    cases Directive.fileName d.value with
    | error f => rfl
    | ok requested =>
      dsimp only
      cases Include.resolve p.options.prefixes p.tree requested place.file with
      | error r => rfl
      | ok i => exact stepEnter_located _ place i place
  | condition => rfl
  | unknown => rfl

theorem settled_of_stepInside {f : Frame} {outer : List Frame} {halt : Halt}
    (h : p.stepInside s f outer = .error halt) : halt.Settled := by
  rw [stepInside] at h
  split at h
  · rw [stepRewrite] at h
    dsimp only at h
    split at h <;> try contradiction
    split at h
    · cases h
      exact fun _ => rfl
    · split at h
      · cases h
        exact fun _ => rfl
      · split at h <;> try contradiction
        cases h
        exact fun _ => rfl
  · contradiction
  · split at h
    · contradiction
    · next d _ =>
      rw [stepDirective] at h
      cases hd : p.stepDispatch { s with frames := f.finish _ [] _ :: outer } f.tagged f.place d with
      | ok s' =>
        rw [hd] at h
        contradiction
      | error inner =>
        rw [hd] at h
        cases h
        exact inner.settled_located f.place

theorem step_eq (s : RunState) :
    p.step s =
      match s.frames with
      | [] => .ok s
      | f :: outer => p.stepInside s f outer := by
  rw [step]
  cases s.frames with
  | nil => rfl
  | cons f outer =>
    dsimp only
    cases h : p.stepInside s f outer with
    | ok s' => rfl
    | error halt => exact congrArg Except.error ((settled_of_stepInside h).surfaced outer)

theorem Includes.step_eq {f : Frame} {outer : List Frame} {raw : Text} {rest : List Text} {i : Include}
    (h : p.Includes s f outer raw rest i) :
    p.step s = p.stepEnter { s with frames := f.finish raw [] rest :: outer, progress := s.progress.record i }
      f.place i := by
  obtain ⟨hw, hf, hl, d, requested, hd, hk, hr, hi⟩ := h
  rw [Project.step_eq, hf]
  dsimp only
  rw [stepInside]
  simp only [hw, hl, hd]
  rw [stepDirective_eq]
  simp only [hk, hr]
  rw [show f.place.file = f.source from rfl, hi]

theorem stepEnter_eq_ok {i : Include} (h : p.stepEnter s place i = .ok s') :
    s' = s ∨ ∃ t a ha hf, p.entry s.stack i = .text t a ha hf ∧
      s' = { s with
        stack := s.stack ++ [a]
        frames := ⟨i.path.toText, true, [], sourceLines t⟩ :: s.frames } := by
  rw [stepEnter] at h
  split at h
  · cases h
    exact Or.inl rfl
  · contradiction
  · contradiction
  · next t a ha hf he =>
    cases h
    exact Or.inr ⟨t, a, ha, hf, he, rfl⟩

theorem stepRewrite_eq_ok {f : Frame} {outer : List Frame} {w : Rewriting}
    (h : p.stepRewrite s f outer w = .ok s') :
    s' = { s with frames := f.finish w.raw w.current f.left :: outer, rewriting := none } ∨
      ∃ current, s' = { s with rewriting := some ⟨w.raw, current, w.count + 1⟩ } := by
  rw [stepRewrite] at h
  dsimp only at h
  split at h
  · cases h
    exact Or.inl rfl
  · split at h
    · contradiction
    · split at h
      · contradiction
      · split at h
        · contradiction
        · cases h
          exact Or.inr ⟨_, rfl⟩

theorem stepDirective_eq_ok {tagged : Bool} {d : Directive} (h : p.stepDirective s tagged place d = .ok s') :
    (d.kind ≠ .inclusion ∧ ∃ g, s' = { s with progress := g }) ∨
      d.kind = .inclusion ∧ ∃ requested i, Directive.fileName d.value = .ok requested ∧
        Include.resolve p.options.prefixes p.tree requested place.file = .ok i ∧
        p.stepEnter { s with progress := s.progress.record i } place i = .ok s' := by
  rw [stepDirective_eq] at h
  cases hk : d.kind with
  | define =>
    simp only [hk] at h
    split at h
    · cases h
      exact Or.inl ⟨by simp, _, rfl⟩
    · contradiction
  | inclusion =>
    simp only [hk] at h
    split at h
    · contradiction
    · next requested hr =>
      split at h
      · contradiction
      · next i hi => exact Or.inr ⟨rfl, requested, i, hr, hi, h⟩
  | condition =>
    simp only [hk] at h
    cases h
    exact Or.inl ⟨by simp, _, rfl⟩
  | unknown =>
    simp only [hk] at h
    cases h
    exact Or.inl ⟨by simp, _, rfl⟩

inductive Change (p : Project) (s s' : RunState) : Prop
  | stay : s'.stack = s.stack → s'.frames.map (·.source) = s.frames.map (·.source) → Change p s s'
  | close {f} : s.frames = f :: s'.frames → s'.stack = s.stack.dropLast → Change p s s'
  | enter {f outer raw rest i t a ha hf} : p.Includes s f outer raw rest i →
      p.entry s.stack i = .text t a ha hf → s'.stack = s.stack ++ [a] →
      s'.frames.map (·.source) = i.path.toText :: s.frames.map (·.source) → i ∈ s'.progress.includes → Change p s s'

theorem Moves.change (h : p.Moves s s') : p.Change s s' := by
  obtain ⟨hne, h⟩ := h
  obtain ⟨stack, frames, rewriting, g, output⟩ := s
  cases frames with
  | nil => contradiction
  | cons f outer =>
    rw [step_eq] at h
    dsimp only at h
    rw [stepInside] at h
    cases rewriting with
    | some w =>
      rcases stepRewrite_eq_ok h with rfl | ⟨current, rfl⟩
      · exact .stay rfl rfl
      · exact .stay rfl rfl
    | none =>
      cases hl : f.left with
      | nil =>
        rw [hl] at h
        cases h
        exact .close rfl rfl
      | cons raw rest =>
        rw [hl] at h
        dsimp only at h
        split at h
        · cases h
          exact .stay rfl rfl
        · next d hd =>
          rcases stepDirective_eq_ok h with ⟨-, g, rfl⟩ | ⟨hk, requested, i, hr, hi, he⟩
          · exact .stay rfl rfl
          · rcases stepEnter_eq_ok he with rfl | ⟨t, a, ha, hf, ht, rfl⟩
            · exact .stay rfl rfl
            · have hrecorded : i ∈ g.includes ++ [i] := List.mem_concat_self
              exact .enter ⟨rfl, rfl, hl, d, requested, hd, hk, hr, hi⟩ ht rfl rfl hrecorded

end Project

end ScriptMacros
