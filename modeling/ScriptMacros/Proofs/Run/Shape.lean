import ScriptMacros.Proofs.Declaration
import ScriptMacros.Proofs.Grouping
import ScriptMacros.Proofs.Run.Collecting
import ScriptMacros.Proofs.Run.Growth

namespace ScriptMacros

structure Definition.Shaped (d : Definition) : Prop where
  value : d.value.Trimmed
  inLine : ∀ c ∈ d.value, InLine c
  column : d.location.column = 1

structure Macro.Shaped (m : Macro) : Prop where
  name_ne_nil : m.name ≠ []
  name : ∀ c ∈ m.name, c ≠ ' ' ∧ c ≠ '(' ∧ InLine c
  parameters : ∀ qs, m.parameters = some qs → ∀ q ∈ qs, q ≠ [] ∧ q.Trimmed ∧ .char ',' ∉ q
  first : ∃ d ds, m.definitions = d :: ds ∧ d.location.file = m.source ∧ d.location.line = m.line
  definitions : ∀ d ∈ m.definitions, d.Shaped

structure MacroTable.Shaped (t : MacroTable) : Prop where
  key : ∀ name m, t.get? name = some m ↔ m ∈ t.macros ∧ m.name = name
  macros : ∀ m ∈ t.macros, m.Shaped

theorem Macro.Shaped.extend {m : Macro} (h : m.Shaped) {d : Definition} (hd : d.Shaped) : (m.extend d).Shaped where
  name_ne_nil := h.name_ne_nil
  name := h.name
  parameters := h.parameters
  first := by
    obtain ⟨e, es, he, hfile, hline⟩ := h.first
    refine ⟨e, es ++ [d], ?_, hfile, hline⟩
    rw [Macro.extend, he]
    rfl
  definitions := by
    intro e he
    rcases List.mem_append.1 he with he | he
    · exact h.definitions e he
    · exact List.mem_singleton.1 he ▸ hd

theorem MacroTable.Shaped.define {t : MacroTable} (h : t.Shaped) {r : Registration} (hr : r.fresh.Shaped) :
    (t.define r).Shaped := by
  refine ⟨fun name m => get?_eq_some_iff, ?_⟩
  intro m hm
  rcases exists_of_mem_registerIn hm with hm | rfl | ⟨m', hm', -, rfl⟩
  · exact h.macros m hm
  · exact hr
  · exact (h.macros m' hm').extend (hr.definitions _ List.mem_cons_self)

namespace Project

theorem shaped_kept : Kept fun g => g.macros.Shaped := by
  intro s g hc hs h
  cases h with
  | keep => exact hs
  | @define f raw d e hf hraw hd he =>
    have hline := inLine_normalize (hc f hf raw hraw).1 (hc f hf raw hraw).2
    have hvalue := Directive.value_subset hd
    have hshape := Declaration.shaped_of_parse he
    refine hs.define ⟨hshape.name_ne_nil, ?_, hshape.parameters, ⟨_, [], rfl, rfl, rfl⟩, ?_⟩
    · intro c hm
      refine ⟨?_, ?_, hline c (hvalue (Declaration.name_subset he hm))⟩
      · rintro rfl
        exact hshape.name.1 hm
      · rintro rfl
        exact hshape.name.2 hm
    · intro d' hd'
      obtain rfl := List.mem_singleton.1 hd'
      exact ⟨hshape.body, fun c hm => hline c (hvalue (Declaration.body_subset he hm)), rfl⟩
  | record i => exact hs

theorem shaped_empty : MacroTable.empty.Shaped :=
  ⟨fun _ _ => MacroTable.get?_eq_some_iff, fun m hm => by contradiction⟩

/-- At every point of a run, nested files included, and when it ends, all macros are in shape; and from there on macros
keep their places and their parameters, and definitions are only added behind those that are there. -/
theorem run_macros_shaped (p : Project) (source : Text) (tagged : Bool) (script : Text) :
    (∀ s, p.Visits source tagged script s → s.progress.macros.Shaped ∧
      (∀ t, p.Reaches s t → s.progress.macros.ContinuedBy t.progress.macros) ∧
      s.progress.macros.ContinuedBy (Report.ofRun (p.run source tagged script)).progress.macros) ∧
    (Report.ofRun (p.run source tagged script)).progress.macros.Shaped := by
  refine ⟨fun s hs => ⟨shaped_kept.visits shaped_empty hs, fun t ht => ?_, ?_⟩,
    shaped_kept.report_of_empty shaped_empty⟩
  · have hgrows := (Progress.ContinuedBy.stable s.progress).kept
    exact (hgrows.reaches hs (.refl _) ht).macros
  · have hgrows := (Progress.ContinuedBy.stable s.progress).kept
    exact (hgrows.report hs (.refl _)).macros

theorem run_macros_shaped_nested :
    let file := fun (name text : String) => ([Utf8.encode name.toList], Node.file (Utf8.encode text.toList))
    let p : Project := { tree := ⟨[file "a" "#define B( x ,, y )z \n#define A 2"], []⟩ }
    let source : Text := "main".toText
    let script := "#define  A 1\n#include 'a'\n#define (A) 3".toText
    ∃ halt s, p.run source false script = .error halt ∧
      halt.progress.macros.macros.map (fun m => (m.name, m.parameters, m.definitions.map (·.value))) =
        [("A".toText, none, ["1".toText, "2".toText]), ("B".toText, some ["x".toText, "y".toText], ["z".toText])] ∧
      halt.progress.macros.Shaped ∧ p.Visits source false script s ∧ s.frames ≠ [] ∧ s.progress.macros.Shaped ∧
      s.progress.macros.ContinuedBy halt.progress.macros := by
  intro file p source script
  have hrun : (p.run source false script).mapError (fun halt =>
      halt.progress.macros.macros.map (fun m => (m.name, m.parameters, m.definitions.map (·.value)))) =
      .error [("A".toText, none, ["1".toText, "2".toText]),
        ("B".toText, some ["x".toText, "y".toText], ["z".toText])] := by
    decide +kernel
  obtain ⟨halt, h, hmacros⟩ := exists_of_mapError_eq_error hrun
  have hsource : ∀ f, (.error halt : Except Halt (Text × Progress)) ≠ .error ⟨.source f source, [], {}⟩ := by
    intro f he
    rw [Except.error.inj he] at hmacros
    exact List.cons_ne_nil _ _ hmacros.symm
  obtain ⟨s, hs, ha⟩ := exists_visited_answers h hsource
  obtain ⟨hstates, hreport⟩ := run_macros_shaped p source false script
  obtain ⟨hshaped, -, hcontinued⟩ := hstates s hs
  rw [h] at hreport hcontinued
  exact ⟨halt, s, h, hmacros, hreport, hs, ha.1, hshaped, hcontinued⟩

end Project

end ScriptMacros
