import ScriptMacros.Bracket
import ScriptMacros.Limit
import ScriptMacros.Macro.Table
import ScriptMacros.Template

/-!
Expansion of a line. The first macro, longest name first, that has an invocation in the line is replaced at its
first invocation, and the search starts again, until no macro has one. Names are found as bare text, so a name
inside a word counts.
-/

namespace ScriptMacros

structure Invocation where
  start : Nat
  written : Text
  after : Text
  replacement : Text
deriving DecidableEq, Repr

namespace Invocation

def shift (n : Nat) (i : Invocation) : Invocation := { i with start := i.start + n }

@[specialize] def seek? (startsAt? : Text → Option Invocation) : (passed : Nat) → Text → Option Invocation
  | n, [] => (startsAt? []).map (shift n)
  | n, c :: t =>
    match startsAt? (c :: t) with
    | some i => some (i.shift n)
    | none => seek? startsAt? (n + 1) t

@[inline] def first? (startsAt? : Text → Option Invocation) (t : Text) : Option Invocation := seek? startsAt? 0 t

theorem seek?_eq (startsAt? : Text → Option Invocation) (n : Nat) (t : Text) :
    seek? startsAt? n t = (first? startsAt? t).map (shift n) := by
  rw [first?]
  induction t generalizing n with
  | nil => cases h : startsAt? [] <;> simp [seek?, h, shift]
  | cons c t ih =>
    cases h : startsAt? (c :: t) with
    | some i => simp [seek?, h, shift]
    | none =>
      simp only [seek?, h, ih (n + 1), ih (0 + 1), Option.map_map]
      congr 1
      funext i
      simp only [Function.comp_apply, shift]
      congr 1
      omega

theorem first?_nil (startsAt? : Text → Option Invocation) : first? startsAt? [] = startsAt? [] := by
  cases h : startsAt? [] <;> simp [first?, seek?, h, shift]

theorem first?_cons (startsAt? : Text → Option Invocation) (c : CodePoint) (t : Text) :
    first? startsAt? (c :: t) = (startsAt? (c :: t)).or ((first? startsAt? t).map (shift 1)) := by
  cases h : startsAt? (c :: t) with
  | some i => simp [first?, seek?, h, shift]
  | none => simpa [first?, seek?, h] using seek?_eq startsAt? 1 t

theorem seek?_offset? {startsAt? : Text → Option Invocation} {p : Text}
    (hs : ∀ t, ¬p.isPrefixOf t → startsAt? t = none) (t : Text) :
    first? startsAt? t = (Text.offset? p t).bind fun n => seek? startsAt? n (t.drop n) := by
  induction t with
  | nil =>
    by_cases h : p.isPrefixOf []
    · simp [Text.offset?, Text.offsetFrom?, h, first?]
    · simp [Text.offset?, Text.offsetFrom?, h, first?_nil, hs]
  | cons c t ih =>
    rw [Text.offset?_cons]
    by_cases h : p.isPrefixOf (c :: t)
    · simp [h, first?]
    · rw [if_neg h, first?_cons, hs _ h, ih]
      cases Text.offset? p t with
      | none => rfl
      | some n =>
        simp only [Option.map_some, Option.bind_some, Option.none_or, Nat.add_comm 1 n, List.drop_succ_cons]
        rw [seek?_eq _ n, seek?_eq _ (n + 1), Option.map_map]
        rfl

def Cuts (i : Invocation) (line : Text) : Prop :=
  ∃ before, before.length = i.start ∧ line = before ++ i.written ++ i.after

theorem cuts_of_first? {startsAt? : Text → Option Invocation}
    (hs : ∀ t i, startsAt? t = some i → i.Cuts t) {t : Text} {i : Invocation}
    (h : first? startsAt? t = some i) : i.Cuts t := by
  induction t generalizing i with
  | nil => exact hs _ _ (first?_nil startsAt? ▸ h)
  | cons c t ih =>
    rw [first?_cons, Option.or_eq_some_iff] at h
    rcases h with h | ⟨-, h⟩
    · exact hs _ _ h
    · obtain ⟨j, hj, rfl⟩ := Option.map_eq_some_iff.1 h
      obtain ⟨before, hb, ht⟩ := ih hj
      exact ⟨c :: before, by simp [hb, shift], by simp [ht, shift]⟩

def result (i : Invocation) (line : Text) : Text := Text.splice i.start line (i.replacement ++ i.after)

theorem result_eq {i : Invocation} {before : Text} (h : before.length = i.start) :
    i.result (before ++ i.written ++ i.after) = before ++ i.replacement ++ i.after := by
  simp [result, Text.splice_eq, ← h]

theorem result_eq_self_iff {i : Invocation} {line : Text} (h : i.Cuts line) :
    i.result line = line ↔ i.replacement = i.written := by
  obtain ⟨before, hb, rfl⟩ := h
  rw [result_eq hb]
  simp

end Invocation

namespace Macro

@[inline] def invocationAt? (m : Macro) (t : Text) : Option Invocation :=
  match Text.after? m.name t, m.parameters with
  | none, _ => none
  | some rest, none => some ⟨0, m.name, rest, m.body⟩
  | some ('(' :: rest), some parameters =>
    (Bracket.cut? rest).map fun (inside, after) =>
      ⟨0, m.name ++ .char '(' :: (inside ++ [.char ')']), after,
        substitute m.body parameters (Bracket.arguments inside)⟩
  | some _, some _ => none

theorem cuts_of_invocationAt? {m : Macro} {t : Text} {i : Invocation} (h : m.invocationAt? t = some i) :
    i.Cuts t := by
  rw [invocationAt?] at h
  split at h
  · contradiction
  · next rest hr _ =>
    cases h
    exact ⟨[], rfl, Text.after?_eq_some.1 hr⟩
  · next rest parameters hr _ =>
    obtain ⟨⟨inside, after⟩, hc, rfl⟩ := Option.map_eq_some_iff.1 h
    exact ⟨[], rfl, by simp [Text.after?_eq_some.1 hr, Bracket.eq_append_of_cut? hc]⟩
  · contradiction

theorem invocationAt?_eq_none {m : Macro} {t : Text} (h : ¬m.name.isPrefixOf t) : m.invocationAt? t = none := by
  simp [invocationAt?, Text.after?_eq_none.2 h]

def invocation? (m : Macro) (line : Text) : Option Invocation :=
  (Text.offset? m.name line).bind fun n => Invocation.seek? m.invocationAt? n (line.drop n)

theorem invocation?_eq (m : Macro) (line : Text) : m.invocation? line = Invocation.first? m.invocationAt? line :=
  (Invocation.seek?_offset? (fun _ => invocationAt?_eq_none) line).symm

theorem cuts_of_invocation? {m : Macro} {line : Text} {i : Invocation} (h : m.invocation? line = some i) :
    i.Cuts line :=
  Invocation.cuts_of_first? (fun _ _ => cuts_of_invocationAt?) (invocation?_eq m line ▸ h)

end Macro

namespace Expansion

inductive Fault where
  | recursion (name : Text) (count : Nat)
  | noLimit
deriving DecidableEq, Repr

def firstInvocation? (ms : List Macro) (line : Text) : Option (Macro × Invocation) :=
  ms.findSome? fun m => (m.invocation? line).map (m, ·)

def next? (ms : List Macro) (line : Text) : Option Text := (firstInvocation? ms line).map (·.2.result line)

/-- Expands a line after `count` replacements, with `left` more of them allowed. An invocation that is replaced by
itself would be replaced for ever. -/
def expandWithin (ms : List Macro) (left count : Nat) (line : Text) : Except Fault Text :=
  match firstInvocation? ms line with
  | none => .ok line
  | some (m, i) =>
    if i.replacement = i.written then .error (.recursion m.name (count + 1))
    else
      match left with
      | 0 => .error (.recursion m.name (count + 1))
      | left + 1 => expandWithin ms left (count + 1) (i.result line)

def expand (ms : List Macro) (limit : Limit) (line : Text) : Except Fault Text :=
  match limit.allowed? with
  | some n => expandWithin ms n 0 line
  | none =>
    match firstInvocation? ms line with
    | none => .ok line
    | some (m, i) => .error (if i.replacement = i.written then .recursion m.name 1 else .noLimit)

structure Step where
  name : Text
  before : Text
  after : Text
deriving DecidableEq, Repr

def steps (ms : List Macro) : (left : Nat) → Text → List Step
  | 0, _ => []
  | left + 1, line =>
    match firstInvocation? ms line with
    | none => []
    | some (m, i) =>
      if i.replacement = i.written then []
      else ⟨m.name, line, i.result line⟩ :: steps ms left (i.result line)

end Expansion

namespace MacroTable

def expand (t : MacroTable) (limit : Limit) (line : Text) : Except Expansion.Fault Text :=
  Expansion.expand t.byLength limit line

end MacroTable

end ScriptMacros
