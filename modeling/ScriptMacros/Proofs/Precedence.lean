import Mathlib.Data.List.Nodup
import ScriptMacros.Proofs.Calling

namespace ScriptMacros

namespace Expansion

structure Inside (line : Text) (m : Macro) (i : Invocation) (m' : Macro) : Prop where
  longer : m.name.length < m'.name.length
  stands : ∃ before after, line = before ++ (m'.name ++ after) ∧ before.length ≤ i.start ∧
    i.start + m.name.length ≤ before.length + m'.name.length

variable {ms : List Macro} {line : Text} {m m' : Macro} {i : Invocation}

theorem Inside.name_infix (h : Inside line m i m') : m'.name <:+: line := by
  obtain ⟨before, after, rfl, -⟩ := h.stands
  exact ⟨before, after, List.append_assoc ..⟩

theorem inside_own (hi : m.invocation? m'.name = some i) (hlonger : m.name.length < m'.name.length) :
    Inside m'.name m i m' := by
  obtain ⟨before, rest, hname, hstart⟩ := Macro.exists_of_invocation? hi
  refine ⟨hlonger, [], [], by simp, Nat.zero_le _, ?_⟩
  rw [hname, ← hstart]
  simp only [List.length_append, List.length_nil]
  omega

theorem Inside.parameters_ne_none (h : Inside line m i m') (hnone : m'.invocation? line = none) :
    m'.parameters ≠ none := by
  intro hp
  have hsome := (Macro.isSome_invocation?_object hp).2 h.name_infix
  rw [hnone] at hsome
  contradiction

end Expansion

theorem Macro.invocation?_own_name {m : Macro} (hp : m.parameters ≠ none) : m.invocation? m.name = none := by
  obtain ⟨parameters, hp⟩ := Option.ne_none_iff_exists'.1 hp
  rw [invocation?_eq_none_iff hp]
  rintro ⟨before, inside, after, hstands, -⟩
  have hlength := congrArg List.length hstands
  simp only [List.length_append, List.length_cons] at hlength
  omega

open Expansion in
/-- A name that is replaced inside a longer one stands in the name of a macro with parameters that the line does not
call at all. And where a name with parameters has the name of a macro without parameters in it, that does happen: the
longer name alone is a line in which a shorter one is replaced. -/
theorem MacroTable.inside_uncalled (t : MacroTable) :
    (∀ line k u m i, lineAfter? t.byLength line k = some u → firstInvocation? t.byLength u = some (m, i) →
      ∀ m' ∈ t.macros, Inside u m i m' →
        m'.parameters ≠ none ∧ ¬Calls m'.name u) ∧
    ∀ m ∈ t.macros, ∀ m' ∈ t.macros, m.parameters = none → m'.parameters ≠ none → m.name <:+: m'.name →
      m.name ≠ m'.name →
        ∃ x i, firstInvocation? t.byLength m'.name = some (x, i) ∧ Inside m'.name x i m' := by
  constructor
  · intro line k u m i _ hf m' hm' hinside
    have hnone := invocation?_of_longer (longestFirst_pairwise _ _) hf (mem_longestFirst.2 hm') hinside.longer
    have hp := hinside.parameters_ne_none hnone
    obtain ⟨parameters, hparameters⟩ := Option.ne_none_iff_exists'.1 hp
    exact ⟨hp, (Macro.invocation?_eq_none_iff hparameters).1 hnone⟩
  · intro m hm m' hm' hobject hp hinfix hne
    have hsome : (firstInvocation? t.byLength m'.name).isSome := by
      rw [firstInvocation?, List.findSome?_isSome_iff]
      refine ⟨m, mem_longestFirst.2 hm, ?_⟩
      rw [Option.isSome_map]
      exact (Macro.isSome_invocation?_object hobject).2 hinfix
    obtain ⟨⟨x, i⟩, hf⟩ := Option.isSome_iff_exists.1 hsome
    obtain ⟨hx, hi⟩ := firstInvocation?_eq_some hf
    -- A name as long as the line would be the line, and that macro is not called.
    have hshorter : x.name ≠ m'.name := by
      intro heq
      rw [List.inj_on_of_nodup_map t.nodup (mem_longestFirst.1 hx) hm' heq, Macro.invocation?_own_name hp] at hi
      contradiction
    have hle := (Macro.name_infix hi).length_le
    have hlength : x.name.length ≠ m'.name.length := fun heq => hshorter ((Macro.name_infix hi).eq_of_length heq)
    exact ⟨x, i, hf, inside_own hi (by omega)⟩

open Expansion in
theorem MacroTable.inside_uncalled_rescanned :
    let foo := Registration.plain "FOO" none "(x)"
    let foobar := Registration.plain "FOOBAR" (some ["a".toText]) "a-FOOBAR"
    let t := ofList [foo, foobar]
    let line := "FOOBAR(1) (2)".toText
    let u := "1-FOOBAR (2)".toText
    let i : Invocation := ⟨2, "FOO".toText, "BAR (2)".toText, "(x)".toText⟩
    lineAfter? t.byLength line 1 = some u ∧ firstInvocation? t.byLength u = some (foo.fresh, i) ∧
      foobar.fresh ∈ t.macros ∧ Inside u foo.fresh i foobar.fresh ∧ foobar.fresh.parameters ≠ none ∧
      ¬Calls foobar.fresh.name u ∧
      (foo.fresh ∈ t.macros ∧ foo.fresh.parameters = none ∧ foo.fresh.name <:+: foobar.fresh.name ∧
        foo.fresh.name ≠ foobar.fresh.name) ∧
      ∃ x i, firstInvocation? t.byLength foobar.fresh.name = some (x, i) ∧
        Inside foobar.fresh.name x i foobar.fresh := by
  intro foo foobar t line u i
  have hu : lineAfter? t.byLength line 1 = some u := by decide +kernel
  have hf : firstInvocation? t.byLength u = some (foo.fresh, i) := by decide +kernel
  have hfoo : foo.fresh ∈ t.macros := by decide +kernel
  have hfoobar : foobar.fresh ∈ t.macros := by decide +kernel
  have hinside : Inside u foo.fresh i foobar.fresh :=
    ⟨by decide, "1-".toText, " (2)".toText, by decide, by decide, by decide⟩
  have hinfix : foo.fresh.name <:+: foobar.fresh.name := by decide
  obtain ⟨huncalled, halone⟩ := inside_uncalled t
  obtain ⟨hp, hcalls⟩ := huncalled line 1 u foo.fresh i hu hf foobar.fresh hfoobar hinside
  exact ⟨hu, hf, hfoobar, hinside, hp, hcalls, ⟨hfoo, rfl, hinfix, by decide⟩,
    halone foo.fresh hfoo foobar.fresh hfoobar rfl hp hinfix (by decide)⟩

open Expansion in
theorem MacroTable.short_name_inside_longer :
    let foo := Registration.plain "FOO" none "x"
    let foobar := Registration.plain "FOOBAR" (some ["a".toText]) "a"
    let t := ofList [foo, foobar]
    (∀ m ∈ t.macros, m.name ≠ []) ∧ t.expand .standard "FOOBAR".toText = .ok "xBAR".toText ∧
      ¬∀ line k u m i, lineAfter? t.byLength line k = some u → firstInvocation? t.byLength u = some (m, i) →
        ∀ m' ∈ t.macros, ¬Inside u m i m' := by
  intro foo foobar t
  refine ⟨by decide +kernel, by decide +kernel, fun h => ?_⟩
  have hf : firstInvocation? t.byLength "FOOBAR".toText = some (foo.fresh, ⟨0, "FOO".toText, "BAR".toText, ['x']⟩) := by
    decide +kernel
  exact h _ 0 _ foo.fresh _ rfl hf foobar.fresh (by decide +kernel)
    ⟨by decide, [], [], by decide, by decide, by decide⟩

end ScriptMacros
