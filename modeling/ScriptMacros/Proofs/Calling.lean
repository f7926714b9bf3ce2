import ScriptMacros.Proofs.Framing

namespace ScriptMacros

namespace Invocation

def stop (i : Invocation) : Nat := i.start + i.written.length

variable {startsAt? : Text → Option Invocation} {t before rest : Text} {i j : Invocation}

theorem first?_least (h : first? startsAt? t = some i) :
    ∃ before rest j, t = before ++ rest ∧ startsAt? rest = some j ∧ i = j.shift before.length ∧
      ∀ b r, t = b ++ r → b.length < before.length → startsAt? r = none := by
  induction t generalizing i with
  | nil => exact ⟨[], [], i, rfl, first?_nil startsAt? ▸ h, rfl, fun b r _ hb => absurd hb (Nat.not_lt_zero _)⟩
  | cons c t ih =>
    rw [first?_cons, Option.or_eq_some_iff] at h
    rcases h with h | ⟨hnone, h⟩
    · exact ⟨[], c :: t, i, rfl, h, rfl, fun b r _ hb => absurd hb (Nat.not_lt_zero _)⟩
    · obtain ⟨k, hk, rfl⟩ := Option.map_eq_some_iff.1 h
      obtain ⟨before, rest, j, rfl, hj, rfl, hleast⟩ := ih hk
      refine ⟨c :: before, rest, j, rfl, hj, shift_shift _ _ _, ?_⟩
      intro b r ht hb
      cases b with
      | nil =>
        rw [List.nil_append] at ht
        rw [← ht, hnone]
      | cons d b => exact hleast b r (List.cons.inj ht).2 (Nat.lt_of_succ_lt_succ hb)

theorem first?_eq_some_iff : first? startsAt? t = some i ↔
    ∃ before rest j, t = before ++ rest ∧ startsAt? rest = some j ∧ i = j.shift before.length ∧
      ∀ b r, t = b ++ r → b.length < before.length → startsAt? r = none := by
  constructor
  · exact first?_least
  · rintro ⟨before, rest, j, ht, hj, rfl, hleast⟩
    have hsome : (first? startsAt? t).isSome := by
      rw [ht]
      exact isSome_first? before (Option.isSome_iff_exists.2 ⟨j, hj⟩)
    obtain ⟨i, hi⟩ := Option.isSome_iff_exists.1 hsome
    obtain ⟨b, r, k, hr, hk, rfl, hleast'⟩ := first?_least hi
    -- Neither of two first places comes before the other.
    have hb : ¬b.length < before.length := fun hlt => by
      rw [hleast b r hr hlt] at hk
      contradiction
    have hbefore : ¬before.length < b.length := fun hlt => by
      rw [hleast' before rest ht hlt] at hj
      contradiction
    obtain ⟨rfl, rfl⟩ := List.append_inj (hr.symm.trans ht) (by omega)
    obtain rfl : k = j := Option.some.inj (hk.symm.trans hj)
    exact hi

theorem first?_eq_none_iff :
    first? startsAt? t = none ↔ ∀ before rest, t = before ++ rest → startsAt? rest = none := by
  constructor
  · rintro h before rest rfl
    rw [Option.eq_none_iff_forall_ne_some]
    intro i hi
    have hsome := isSome_first? before (Option.isSome_iff_exists.2 ⟨i, hi⟩)
    rw [h] at hsome
    contradiction
  · intro h
    rw [Option.eq_none_iff_forall_ne_some]
    intro i hi
    obtain ⟨before, rest, j, ht, hj, -⟩ := first?_least hi
    rw [h before rest ht] at hj
    contradiction

end Invocation

/-- A call of the name stands in the text between two others: what is inside its brackets is balanced, so the second
bracket is the one that closes the first. -/
structure CallsAt (name t before inside after : Text) : Prop where
  stands : t = before ++ (name ++ .char '(' :: (inside ++ .char ')' :: after))
  balanced : Bracket.Balanced inside

def Calls (name t : Text) : Prop :=
  ∃ before inside after, t = before ++ (name ++ .char '(' :: (inside ++ .char ')' :: after)) ∧ Bracket.Balanced inside

theorem calls_iff {name t : Text} : Calls name t ↔ ∃ before inside after, CallsAt name t before inside after :=
  ⟨fun ⟨before, inside, after, hstands, hbalanced⟩ => ⟨before, inside, after, hstands, hbalanced⟩,
    fun ⟨before, inside, after, hstands, hbalanced⟩ => ⟨before, inside, after, hstands, hbalanced⟩⟩

namespace Macro

variable {m : Macro} {parameters : List Text} {line : Text}

theorem invocationAt?_eq_some_iff (hp : m.parameters = some parameters) {t : Text} {i : Invocation} :
    m.invocationAt? t = some i ↔ ∃ inside after, t = m.name ++ .char '(' :: (inside ++ .char ')' :: after) ∧
      Bracket.Balanced inside ∧ i = ⟨0, m.name ++ .char '(' :: (inside ++ [.char ')']), after,
        substitute m.body parameters (Bracket.arguments inside)⟩ := by
  rw [invocationAt?_function hp, Option.bind_eq_some_iff]
  constructor
  · rintro ⟨rest, hrest, hi⟩
    obtain ⟨⟨inside, after⟩, hcut, rfl⟩ := Option.map_eq_some_iff.1 hi
    obtain ⟨rfl, hbalanced⟩ := Bracket.cut?_eq_some_iff.1 hcut
    exact ⟨inside, after, by simpa using Text.after?_eq_some.1 hrest, hbalanced, rfl⟩
  · rintro ⟨inside, after, rfl, hbalanced, rfl⟩
    refine ⟨inside ++ .char ')' :: after, Text.after?_eq_some.2 (by simp), ?_⟩
    exact Option.map_eq_some_iff.2 ⟨(inside, after), Bracket.cut?_eq_some_iff.2 ⟨rfl, hbalanced⟩, rfl⟩

theorem invocationAt?_eq_none_iff (hp : m.parameters = some parameters) {before rest : Text}
    (hline : line = before ++ rest) :
    m.invocationAt? rest = none ↔ ∀ inside after, ¬CallsAt m.name line before inside after := by
  subst hline
  rw [Option.eq_none_iff_forall_ne_some]
  constructor
  · rintro h inside after ⟨hstands, hbalanced⟩
    exact h _ ((invocationAt?_eq_some_iff hp).2 ⟨inside, after, List.append_cancel_left hstands, hbalanced, rfl⟩)
  · intro h i hi
    obtain ⟨inside, after, rfl, hbalanced, -⟩ := (invocationAt?_eq_some_iff hp).1 hi
    exact h inside after ⟨rfl, hbalanced⟩

theorem invocation?_eq_none_iff (hp : m.parameters = some parameters) :
    m.invocation? line = none ↔ ¬Calls m.name line := by
  rw [invocation?_eq, Invocation.first?_eq_none_iff]
  constructor
  · intro h hcalls
    obtain ⟨before, inside, after, hcall⟩ := calls_iff.1 hcalls
    exact (invocationAt?_eq_none_iff hp hcall.stands).1 (h before _ hcall.stands) inside after hcall
  · intro h before rest hline
    rw [invocationAt?_eq_none_iff hp hline]
    exact fun inside after hcall => h (calls_iff.2 ⟨before, inside, after, hcall⟩)

theorem invocation?_eq_some_iff (hp : m.parameters = some parameters) {i : Invocation} :
    m.invocation? line = some i ↔ ∃ before inside after, CallsAt m.name line before inside after ∧
      (∀ b inside' after', CallsAt m.name line b inside' after' → before.length ≤ b.length) ∧
      i = ⟨before.length, m.name ++ .char '(' :: (inside ++ [.char ')']), after,
        substitute m.body parameters (Bracket.arguments inside)⟩ := by
  rw [invocation?_eq, Invocation.first?_eq_some_iff]
  constructor
  · rintro ⟨before, rest, j, hline, hj, rfl, hleast⟩
    obtain ⟨inside, after, rfl, hbalanced, rfl⟩ := (invocationAt?_eq_some_iff hp).1 hj
    refine ⟨before, inside, after, ⟨hline, hbalanced⟩, ?_, by simp [Invocation.shift]⟩
    intro b inside' after' hcalls
    apply Nat.le_of_not_lt
    intro hlt
    exact (invocationAt?_eq_none_iff hp hcalls.stands).1 (hleast b _ hcalls.stands hlt) inside' after' hcalls
  · rintro ⟨before, inside, after, hcalls, hleast, rfl⟩
    refine ⟨before, _, _, hcalls.stands, (invocationAt?_eq_some_iff hp).2 ⟨inside, after, rfl, hcalls.balanced, rfl⟩,
      by simp [Invocation.shift], ?_⟩
    intro b r hline hlt
    rw [invocationAt?_eq_none_iff hp hline]
    intro inside' after' hcalls'
    exact absurd (hleast b inside' after' hcalls') (Nat.not_le_of_lt hlt)

/-- A macro with parameters is invoked exactly where its first call begins, up to the bracket that closes it, and is
replaced by its body with the arguments between the brackets. Without a call it is not invoked. -/
theorem invocation?_exact (hp : m.parameters = some parameters) (line : Text) :
    (∀ start stop replacement,
      (∃ i, m.invocation? line = some i ∧ i.start = start ∧ i.stop = stop ∧ i.replacement = replacement) ↔
        ∃ before inside after, CallsAt m.name line before inside after ∧
          (∀ b inside' after', CallsAt m.name line b inside' after' → before.length ≤ b.length) ∧
          start = before.length ∧
          stop = (before ++ m.name ++ CodePoint.char '(' :: inside ++ [CodePoint.char ')']).length ∧
          replacement = substitute m.body parameters (Bracket.arguments inside)) ∧
    (m.invocation? line = none ↔ ¬Calls m.name line) := by
  refine ⟨fun start stop replacement => ?_, invocation?_eq_none_iff hp⟩
  have hstop : ∀ (before inside after replacement : Text),
      (Invocation.mk before.length (m.name ++ .char '(' :: (inside ++ [.char ')'])) after replacement).stop =
        (before ++ m.name ++ CodePoint.char '(' :: inside ++ [CodePoint.char ')']).length := by
    intro before inside after replacement
    simp only [Invocation.stop, List.length_append, List.length_cons]
    omega
  constructor
  · rintro ⟨i, hi, rfl, rfl, rfl⟩
    obtain ⟨before, inside, after, hcalls, hleast, rfl⟩ := (invocation?_eq_some_iff hp).1 hi
    exact ⟨before, inside, after, hcalls, hleast, rfl, hstop _ _ _ _, rfl⟩
  · rintro ⟨before, inside, after, hcalls, hleast, rfl, rfl, rfl⟩
    exact ⟨_, (invocation?_eq_some_iff hp).2 ⟨before, inside, after, hcalls, hleast, rfl⟩, rfl, hstop _ _ _ _, rfl⟩

theorem invocation?_exact_overlapping :
    let m : Macro := (Registration.plain "aa" (some ["x".toText, "y".toText]) "#x-y").fresh
    let line := "aa aa(( aaa(f(1,2),(3)) aa(4)".toText
    let inside := "f(1,2),(3)".toText
    let after := " aa(4)".toText
    m.parameters = some ["x".toText, "y".toText] ∧ CallsAt m.name line "aa aa(( a".toText inside after ∧
      (∀ b inside' after', CallsAt m.name line b inside' after' → 9 ≤ b.length) ∧
      (∃ i, m.invocation? line = some i ∧ i.start = 9 ∧ i.stop = 23 ∧ i.replacement = "\"f(1,2)\"-(3)".toText) ∧
      m.invocation? "aa aa((1)".toText = none ∧ ¬Calls m.name "aa aa((1)".toText := by
  intro m line inside after
  have hp : m.parameters = some ["x".toText, "y".toText] := rfl
  have hi : ∃ i, m.invocation? line = some i ∧ i.start = 9 ∧ i.stop = 23 ∧
      i.replacement = "\"f(1,2)\"-(3)".toText := by
    exact ⟨⟨9, "aa(f(1,2),(3))".toText, after, "\"f(1,2)\"-(3)".toText⟩, by decide +kernel, rfl, by decide, rfl⟩
  have hnone : m.invocation? "aa aa((1)".toText = none := by decide +kernel
  obtain ⟨before, inside', after', -, hleast, hstart, -, -⟩ := ((invocation?_exact hp line).1 9 23 _).1 hi
  exact ⟨hp, ⟨by decide, by decide +kernel⟩, hstart ▸ hleast, hi, hnone, (invocation?_exact hp _).2.1 hnone⟩

end Macro

end ScriptMacros
