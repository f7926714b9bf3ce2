import ScriptMacros.Proofs.Run.Output

namespace ScriptMacros

structure Macro.ContinuedBy (m m' : Macro) : Prop where
  name : m'.name = m.name
  parameters : m'.parameters = m.parameters
  source : m'.source = m.source
  line : m'.line = m.line
  definitions : m.definitions <+: m'.definitions

structure MacroTable.ContinuedBy (t t' : MacroTable) : Prop where
  macros : ∀ m ∈ t.macros, ∃ m' ∈ t'.macros, m.ContinuedBy m'
  names : t.names <+: t'.names

structure Progress.ContinuedBy (g g' : Progress) : Prop where
  macros : g.macros.ContinuedBy g'.macros
  includes : g.includes <+: g'.includes

namespace Macro.ContinuedBy

variable {m m' m'' : Macro}

theorem refl (m : Macro) : m.ContinuedBy m := ⟨rfl, rfl, rfl, rfl, List.prefix_rfl⟩

theorem trans (h : m.ContinuedBy m') (h' : m'.ContinuedBy m'') : m.ContinuedBy m'' where
  name := h'.name.trans h.name
  parameters := h'.parameters.trans h.parameters
  source := h'.source.trans h.source
  line := h'.line.trans h.line
  definitions := h.definitions.trans h'.definitions

theorem extend (m : Macro) (d : Definition) : m.ContinuedBy (m.extend d) :=
  ⟨rfl, rfl, rfl, rfl, List.prefix_append _ _⟩

end Macro.ContinuedBy

theorem exists_mem_registerIn (r : Registration) {ms : List Macro} {m : Macro} (h : m ∈ ms) :
    ∃ m' ∈ registerIn r ms, m.ContinuedBy m' := by
  induction ms with
  | nil => contradiction
  | cons a ms ih =>
    rw [registerIn]
    split
    · rcases List.mem_cons.1 h with rfl | h
      · exact ⟨m.extend r.definition, List.mem_cons_self, .extend m r.definition⟩
      · exact ⟨m, List.mem_cons_of_mem _ h, .refl m⟩
    · rcases List.mem_cons.1 h with rfl | h
      · exact ⟨m, List.mem_cons_self, .refl m⟩
      · obtain ⟨m', hm', hc⟩ := ih h
        exact ⟨m', List.mem_cons_of_mem a hm', hc⟩

namespace MacroTable.ContinuedBy

variable {t t' t'' : MacroTable}

theorem refl (t : MacroTable) : t.ContinuedBy t := ⟨fun m hm => ⟨m, hm, .refl m⟩, List.prefix_rfl⟩

theorem trans (h : t.ContinuedBy t') (h' : t'.ContinuedBy t'') : t.ContinuedBy t'' := by
  refine ⟨?_, h.names.trans h'.names⟩
  intro m hm
  obtain ⟨m', hm', hc⟩ := h.macros m hm
  obtain ⟨m'', hm'', hc'⟩ := h'.macros m' hm'
  exact ⟨m'', hm'', hc.trans hc'⟩

theorem define (t : MacroTable) (r : Registration) : t.ContinuedBy (t.define r) := by
  refine ⟨fun m hm => exists_mem_registerIn r hm, ?_⟩
  rw [names_define]
  split
  · exact List.prefix_rfl
  · exact List.prefix_append _ _

end MacroTable.ContinuedBy

namespace Progress.ContinuedBy

variable {g g' g'' : Progress}

theorem refl (g : Progress) : g.ContinuedBy g := ⟨.refl g.macros, List.prefix_rfl⟩

theorem trans (h : g.ContinuedBy g') (h' : g'.ContinuedBy g'') : g.ContinuedBy g'' :=
  ⟨h.macros.trans h'.macros, h.includes.trans h'.includes⟩

theorem stable (g : Progress) : Project.Stable g.ContinuedBy where
  define := fun _ _ _ _ _ _ h => h.trans ⟨.define _ _, List.prefix_rfl⟩
  record := fun _ h => h.trans ⟨.refl _, List.prefix_append _ _⟩

end Progress.ContinuedBy

theorem sourceLines_append (script later : Text) :
    sourceLines (script ++ .char '\n' :: later) = sourceLines script ++ sourceLines later := by
  rw [sourceLines, List.filter_append, List.filter_cons_of_pos (by decide)]
  exact List.splitOn_append_cons_self _ _

namespace Project

theorem passLines_continuedBy {p : Project} {active : List Address} {source : Text} {tagged : Bool} {n : Nat}
    {lines out : List Text} {g g' : Progress} (hl : ∀ raw ∈ lines, .char '\n' ∉ raw ∧ .char '\r' ∉ raw)
    (h : p.passLines active (p.nested active) source tagged n lines g = .ok (out, g')) : g.ContinuedBy g' := by
  have hstable := Progress.ContinuedBy.stable g
  exact (hstable.passLines hstable.nested hl (.refl g) h).1

/-- Later lines change nothing about the earlier ones, neither what is written for them, nor what is collected from
them, nor how they fail. -/
theorem run_append (p : Project) (source : Text) (tagged : Bool) (script later : Text) :
    (∀ t g, p.run source tagged (script ++ .char '\n' :: later) = .ok (t, g) →
      ∃ t₁ g₁, p.run source tagged script = .ok (t₁, g₁) ∧
        Text.lines t₁ = (Text.lines t).take (sourceLines script).length ∧ g₁.ContinuedBy g) ∧
    ∀ halt, p.run source tagged script = .error halt →
      p.run source tagged (script ++ .char '\n' :: later) = .error halt := by
  constructor
  · intro t g h
    have hrun := run_eq_ok_iff.1 h
    have hk := askSource_of_runLines hrun
    rw [sourceLines_append, runLines_eq_passLines hk] at hrun
    obtain ⟨out₁, g₁, out₂, h₁, h₂, hout⟩ := passLines_append_eq_ok.1 hrun
    have hrun₁ : p.runLines source tagged (sourceLines script) = .ok (out₁, g₁) := by
      rw [runLines_eq_passLines hk, h₁]
    have hlines := lines_runLines hrun₁
    refine ⟨Text.ofLines out₁, g₁, ?_, ?_, ?_⟩
    · rw [run_eq_ok_iff, hrun₁, hlines]
    · rw [hlines, hout, ← length_passLines h₁, List.take_left]
    · exact passLines_continuedBy (fun raw hraw => sourceLines_clean hraw) h₂
  · intro halt h
    rw [run_eq_error_iff] at h ⊢
    cases hs : FileTree.askSource source with
    | error f =>
      rw [runLines, hs] at h ⊢
      exact h
    | ok k =>
      rw [runLines_eq_passLines hs] at h ⊢
      rw [sourceLines_append]
      exact passLines_append_of_error _ h

theorem run_append_redefined :
    let p : Project := {
      options := { limit := .count 3 }
      tree := ⟨[([[97]], .file (Utf8.encode "#define B 1".toList))], []⟩ }
    let source : Text := "main".toText
    let script := "#define A B\n#include 'a'\nA".toText
    let later := "#define A B#\n#include 'a'\nA\n#define B A\nA".toText
    ∃ t g t₁ g₁ halt,
      p.run source false (script ++ .char '\n' :: "#define A 2\n#include 'a'\nA B".toText) = .ok (t, g) ∧
      Text.lines t = [[], [], "1".toText, [], [], "2 1".toText] ∧ p.run source false script = .ok (t₁, g₁) ∧
      Text.lines t₁ = (Text.lines t).take 3 ∧ g₁.ContinuedBy g ∧
      p.run source false (script ++ .char '\n' :: later) = .error halt ∧
      p.run source false ((script ++ .char '\n' :: later) ++ .char '\n' :: "#define".toText) = .error halt := by
  intro p source script later
  have hlong : (p.run source false (script ++ .char '\n' :: "#define A 2\n#include 'a'\nA B".toText)).map
      (fun r => Text.lines r.1) = .ok [[], [], "1".toText, [], [], "2 1".toText] := by
    decide +kernel
  have hfails : (p.run source false (script ++ .char '\n' :: later)).mapError (·.failure) =
      .error (.expansion (.recursion ['B'] 4) ⟨source, 8, 1⟩ ['A']) := by
    decide +kernel
  obtain ⟨⟨t, g⟩, h, ht⟩ := exists_of_map_eq_ok hlong
  obtain ⟨t₁, g₁, h₁, htake, hg⟩ := (run_append p source false script _).1 t g h
  obtain ⟨halt, hhalt, -⟩ := exists_of_mapError_eq_error hfails
  exact ⟨t, g, t₁, g₁, halt, h, ht, h₁, htake, hg, hhalt, (run_append p source false _ _).2 halt hhalt⟩

end Project

end ScriptMacros
