import ScriptMacros.Proofs.Run.Failing
import ScriptMacros.Proofs.Run.Retagging
import ScriptMacros.Proofs.Run.Shape

namespace ScriptMacros

def ScriptLine.registration? (l : ScriptLine) : Option Registration :=
  match Directive.ofLine? (Line.normalize l.raw) with
  | none => none
  | some d =>
    if d.kind = .define then
      match Declaration.parse d.value with
      | .ok e => some {
          name := e.name
          parameters := e.parameters
          definition := {
            value := e.body
            location := l.place
            tag := if l.file.tagged then some l.file.source else none
            endColumn := d.value.length + 1 } }
      | .error _ => none
    else none

theorem ScriptLine.registration?_eq_some {l : ScriptLine} {r : Registration} (h : l.registration? = some r) :
    r.definition.location = l.place ∧
      r.definition.tag = if l.file.tagged then some l.file.source else none := by
  rw [registration?] at h
  split at h
  · contradiction
  · split at h
    · split at h
      · cases h
        exact ⟨rfl, rfl⟩
      · contradiction
    · contradiction

theorem MacroTable.exists_of_mem_ofList {rs : List Registration} {m : Macro} {d : Definition}
    (hm : m ∈ (ofList rs).macros)
    (hd : d ∈ m.definitions) : ∃ r ∈ rs, r.name = m.name ∧ r.definition = d := by
  rw [((Groups.ofList rs).macros m hm).definitions] at hd
  obtain ⟨r, hr, rfl⟩ := List.mem_map.1 hd
  obtain ⟨hr, hname⟩ := List.mem_filter.1 hr
  exact ⟨r, hr, of_decide_eq_true hname, rfl⟩

/-- Where a definition of a run comes from, and what its tag tells. -/
structure Provenance (source : Text) (tagged : Bool) (l : ScriptLine) (d : Definition) : Prop where
  location : d.location = l.place
  tag : d.tag = none ∨ d.tag = some d.location.file
  untagged : d.tag = none ↔ l.file.outer = [] ∧ tagged = false
  script : l.file.outer = [] ↔ d.location.file = source

namespace Project

variable {p : Project} {active : List Address} {source : Text} {tagged : Bool} {script : Text} {g g' : Progress}
  {l : ScriptLine} {lines : List ScriptLine}

theorem act_macros (h : p.act g l = .ok g') :
    g'.macros = l.registration?.toList.foldl MacroTable.define g.macros := by
  obtain ⟨⟨t, g₁⟩, hline, rfl⟩ := exists_of_map_eq_ok h
  rw [ScriptLine.registration?]
  rcases passLine_eq_ok hline with ⟨d, hd, -, ha⟩ | ⟨hd, rfl, -⟩
  · rw [hd]
    rcases applyDirective_eq_ok ha with ⟨hk, e, he, rfl⟩ | ⟨hk, requested, i, -, -, hi⟩ | ⟨hk, rfl⟩
    · simp only [hk, he]
      rfl
    · have hg : g₁ = g.record i := by
        rcases enter_eq_ok hi with ⟨-, rfl⟩ | ⟨t, a, ha, hf, out, -, hskip⟩
        · rfl
        · cases hskip
          rfl
      simp only [hk, hg]
      rfl
    · rcases hk with hk | hk
      · simp only [hk]
        rfl
      · simp only [hk]
        rfl
  · rw [hd]
    rfl

theorem foldlM_act_macros (h : lines.foldlM p.act g = .ok g') :
    g'.macros = (lines.filterMap ScriptLine.registration?).foldl MacroTable.define g.macros := by
  induction lines generalizing g with
  | nil =>
    cases h
    rfl
  | cons l lines ih =>
    rw [List.foldlM_cons] at h
    cases hl : p.act g l with
    | error halt =>
      rw [hl] at h
      contradiction
    | ok g₁ =>
      rw [hl] at h
      rw [ih h, act_macros hl, List.filterMap_cons]
      cases l.registration? <;> rfl

theorem exists_made (p : Project) (source : Text) (tagged : Bool) (script : Text) (hh : p.tree.here.Canonical) :
    ∃ made, made <+: p.scriptLines source tagged script ∧ (Report.ofRun (p.run source tagged script)).progress.macros =
      MacroTable.ofList (made.filterMap ScriptLine.registration?) := by
  cases h : p.run source tagged script with
  | ok r =>
    obtain ⟨t, g⟩ := r
    have hrun := run_eq_ok_iff.1 h
    have hk := askSource_of_runLines hrun
    have hlines := p.runLines_eq_foldlM hh hk tagged script
    rw [hrun] at hlines
    exact ⟨_, List.prefix_rfl, foldlM_act_macros hlines.symm⟩
  | error halt =>
    rcases exists_arrives hh h with ⟨f, -, rfl⟩ | ⟨l, g, ⟨-, before, after, hsplit, hbefore⟩, hl⟩
    · exact ⟨[], List.nil_prefix, rfl⟩
    · have hsame : halt.progress.macros = g.macros := by
        rcases (act_eq_error hl).2 with ⟨i, -, -, -, hg⟩ | ⟨-, hg⟩
        · rw [hg]
          rfl
        · rw [hg]
      exact ⟨before, ⟨_, hsplit.symm⟩, hsame.trans (foldlM_act_macros hbefore)⟩

theorem file_of_mem_depthFirst (hh : p.tree.here.Canonical) {f : OpenFile} {n : Nat} {raws : List Text}
    (hactive : active = f.active p.tree.here) (h : l ∈ p.depthFirst active f n raws) :
    l.file = f ∨ l.file.tagged = true ∧ l.file.outer ≠ [] ∧
      (Path.ofText l.file.source).address p.tree.here ∉ active := by
  fun_induction depthFirst p active f n raws with
  | case1 => contradiction
  | case2 active f n raw rest hnone ih =>
    rcases List.mem_cons.1 h with rfl | h
    · exact Or.inl rfl
    · exact ih hactive h
  | case3 active f n raw rest e he ihinner ih =>
    rcases List.mem_append.1 h with h | h
    · rcases List.mem_cons.1 h with rfl | h
      · exact Or.inl rfl
      · have hinner := Target.active_nested hh hactive he
        obtain ⟨hi, hentry⟩ := target?_eq_some he
        obtain ⟨requested, hresolve⟩ := hi.resolves
        rcases ihinner hinner h with hfile | ⟨htagged, houter, hnot⟩
        · right
          rw [hfile]
          refine ⟨rfl, by simp [OpenFile.nested, OpenFile.names], ?_⟩
          rw [OpenFile.nested, Path.ofText_toText (Include.sound_of_resolve hh hresolve), ← (entry_eq_text hentry).1]
          exact e.inactive
        · exact Or.inr ⟨htagged, houter, fun hmem => hnot (List.mem_append_left _ hmem)⟩
    · exact ih hactive h

theorem file_of_mem_scriptLines (hh : p.tree.here.Canonical) (h : l ∈ p.scriptLines source tagged script) :
    (l.file.outer = [] ↔ l.file.source = source) ∧ (l.file.tagged = false ↔ l.file.outer = [] ∧ tagged = false) := by
  rw [scriptLines] at h
  rcases file_of_mem_depthFirst hh (f := ⟨[], source, tagged⟩) rfl h with hfile | ⟨htagged, houter, hnot⟩
  · rw [hfile]
    simp
  · have hsource : l.file.source ≠ source := by
      intro he
      exact hnot (he ▸ List.mem_singleton_self _)
    simp [htagged, houter, hsource]

theorem provenance_of_registration? (hh : p.tree.here.Canonical) (h : l ∈ p.scriptLines source tagged script)
    {r : Registration} (hr : l.registration? = some r) : Provenance source tagged l r.definition := by
  obtain ⟨hlocation, htag⟩ := ScriptLine.registration?_eq_some hr
  obtain ⟨hscript, hfile⟩ := file_of_mem_scriptLines hh h
  have hsource : r.definition.location.file = l.file.source := by
    rw [hlocation]
    rfl
  refine ⟨hlocation, ?_, ?_, by rw [hsource, hscript]⟩
  · rw [htag, hsource]
    cases l.file.tagged <;> simp
  · rw [htag, ← hfile]
    cases l.file.tagged <;> simp

/-- Every definition of a run comes from a line that was dealt with, is untagged only if this line stands in the script
and its definitions are not to be tagged, and names the script as its place only if it stands there. Whether definitions
of the script are tagged makes no other difference than their tags. -/
theorem run_definitions_tagged (p : Project) (source : Text) (script : Text) (hh : p.tree.here.Canonical) :
    (∀ tagged, ∃ made, made <+: p.scriptLines source tagged script ∧
      (Report.ofRun (p.run source tagged script)).progress.macros =
        MacroTable.ofList (made.filterMap ScriptLine.registration?) ∧
      ∀ m ∈ (Report.ofRun (p.run source tagged script)).progress.macros.macros, ∀ d ∈ m.definitions,
        ∃ l ∈ made, ∃ r, l.registration? = some r ∧ r.name = m.name ∧ r.definition = d ∧
          Provenance source tagged l d) ∧
    p.run source true script =
      retagged source (fun r => (r.1, r.2.retag source)) (p.run source false script) := by
  refine ⟨fun tagged => ?_, p.run_retag source script⟩
  obtain ⟨made, hmade, hmacros⟩ := exists_made p source tagged script hh
  refine ⟨made, hmade, hmacros, ?_⟩
  intro m hm d hd
  rw [hmacros] at hm
  obtain ⟨r, hr, hname, rfl⟩ := MacroTable.exists_of_mem_ofList hm hd
  obtain ⟨l, hl, hlr⟩ := List.mem_filterMap.1 hr
  exact ⟨l, hl, r, hlr, hname, rfl, provenance_of_registration? hh (hmade.subset hl) hlr⟩

theorem run_definitions_tagged_nested :
    let file := fun (name text : String) => ([Utf8.encode name.toList], Node.file (Utf8.encode text.toList))
    let p : Project := { tree := ⟨[file "a" "#define A 2\n#include 'b'", file "b" "#define B"], []⟩ }
    let source : Text := "main".toText
    let script := "#define A 1\n#include 'a'\n#define C 3\n#define".toText
    let tags := fun (halt : Halt) => halt.progress.macros.macros.map fun m => (m.name, m.definitions.map (·.tag))
    let inA : Option Text := some ("/a".toText)
    let inB : Option Text := some ("/b".toText)
    p.tree.here.Canonical ∧ ∃ halt made, p.run source false script = .error halt ∧
      tags halt = [("A".toText, [none, inA]), ("B".toText, [inB]), ("C".toText, [none])] ∧
      made <+: p.scriptLines source false script ∧
      (∀ m ∈ halt.progress.macros.macros, ∀ d ∈ m.definitions, ∃ l ∈ made, ∃ r, l.registration? = some r ∧
        r.name = m.name ∧ r.definition = d ∧ Provenance source false l d) ∧
      p.run source true script = .error (halt.retag source) ∧
      tags (halt.retag source) =
        [("A".toText, [some source, inA]), ("B".toText, [inB]), ("C".toText, [some source])] := by
  intro file p source script tags inA inB
  have hh : p.tree.here.Canonical := by
    intro n hn
    contradiction
  have hplain : (p.run source false script).mapError tags =
      .error [("A".toText, [none, inA]), ("B".toText, [inB]), ("C".toText, [none])] := by
    decide +kernel
  have htagged : (p.run source true script).mapError tags =
      .error [("A".toText, [some source, inA]), ("B".toText, [inB]), ("C".toText, [some source])] := by
    decide +kernel
  obtain ⟨halt, h, htags⟩ := exists_of_mapError_eq_error hplain
  obtain ⟨halt', h', htags'⟩ := exists_of_mapError_eq_error htagged
  obtain ⟨htables, hretag⟩ := run_definitions_tagged p source script hh
  obtain ⟨made, hmade, -, hdefinitions⟩ := htables false
  rw [h] at hdefinitions hretag
  obtain rfl : halt' = halt.retag source := Except.error.inj (h'.symm.trans hretag)
  exact ⟨hh, halt, made, h, htags, hmade, hdefinitions, hretag, htags'⟩

end Project

end ScriptMacros
