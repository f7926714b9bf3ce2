import ScriptMacros.Proofs.Run.Provenance

namespace ScriptMacros

def Outline.ofLine? (raw : Text) : Option Outline :=
  match Directive.ofLine? (Line.normalize raw) with
  | none => none
  | some d =>
    if d.kind = .define then
      match Declaration.parse d.value with
      | .ok e => some ⟨e.name, e.parameters, [e.body]⟩
      | .error _ => none
    else none

theorem ScriptLine.outline_registration? (l : ScriptLine) :
    l.registration?.map Registration.outline = Outline.ofLine? l.raw := by
  rw [registration?, Outline.ofLine?]
  cases Directive.ofLine? (Line.normalize l.raw) with
  | none => rfl
  | some d =>
    dsimp only
    split
    · cases Declaration.parse d.value <;> rfl
    · rfl

namespace Project

variable {p : Project} {active : List Address} {entering : Entering p active} {source : Text}
  {tagged : Bool} {place place' : Location} {f : OpenFile} {n n' : Nat} {raw t t' : Text} {lines out out' : List Text}
  {g g' g₁ g₁' : Progress}

theorem map_raw_depthFirst (n n' : Nat) (lines : List Text) :
    (p.depthFirst active f n lines).map (·.raw) = (p.depthFirst active f n' lines).map (·.raw) := by
  induction lines generalizing n n' with
  | nil => rw [depthFirst, depthFirst]
  | cons raw rest ih =>
    rw [depthFirst, depthFirst]
    cases p.target? active f.source raw with
    | none =>
      dsimp only
      rw [List.map_cons, List.map_cons, ih (n + 1) (n' + 1)]
    | some e =>
      dsimp only
      rw [List.map_append, List.map_append, List.map_cons, List.map_cons, ih (n + 1) (n' + 1)]

/-- What the lines of a file assign to macros, in their order, nested files included. -/
def assignments (p : Project) (active : List Address) (f : OpenFile) (lines : List Text) : List Outline :=
  ((p.depthFirst active f 1 lines).map (·.raw)).filterMap Outline.ofLine?

theorem current_passLines (hh : p.tree.here.Canonical) (hactive : active = f.active p.tree.here)
    (h : p.passLines active (p.nested active) f.source f.tagged n lines g = .ok (out, g')) :
    g'.macros.current = (p.assignments active f lines).foldl Outline.assign g.macros.current := by
  have hfold : (p.passLines active (p.nested active) f.source f.tagged n lines g).map (·.2) =
      (p.depthFirst active f n lines).foldlM p.act g :=
    passLines_eq_foldlM hh hactive
  rw [h] at hfold
  rw [foldlM_act_macros hfold.symm, MacroTable.current_foldl_define, List.map_filterMap, assignments,
    map_raw_depthFirst 1 n, List.filterMap_map]
  congr 2
  funext l
  exact l.outline_registration?

theorem current_passLine (hh : p.tree.here.Canonical) (hactive : active = f.active p.tree.here)
    (h : p.passLine active (p.nested active) f.tagged ⟨f.source, n, 1⟩ raw g = .ok (t, g')) :
    g'.macros.current = (p.assignments active f [raw]).foldl Outline.assign g.macros.current := by
  have hlines : p.passLines active (p.nested active) f.source f.tagged n [raw] g = .ok ([t], g') := by
    rw [passLines, h]
    rfl
  exact current_passLines hh hactive hlines

theorem passLine_of_current (hg : g.macros.current = g'.macros.current)
    (h : p.passLine active entering tagged place raw g = .ok (t, g₁))
    (h' : p.passLine active entering tagged place' raw g' = .ok (t', g₁')) : t = t' := by
  rcases passLine_eq_ok h with ⟨d, hd, rfl, -⟩ | ⟨hd, -, ht⟩
  · rcases passLine_eq_ok h' with ⟨d', -, rfl, -⟩ | ⟨hd', -, -⟩
    · rfl
    · cases hd.symm.trans hd'
  · rcases passLine_eq_ok h' with ⟨d', hd', -, -⟩ | ⟨-, -, ht'⟩
    · cases hd.symm.trans hd'
    · rw [MacroTable.expand_congr_current hg] at ht
      exact Except.ok.inj (ht.symm.trans ht')

theorem passLines_of_current (hh : p.tree.here.Canonical) (hactive : active = f.active p.tree.here)
    (hg : g.macros.current = g'.macros.current)
    (h : p.passLines active (p.nested active) f.source f.tagged n lines g = .ok (out, g₁))
    (h' : p.passLines active (p.nested active) f.source f.tagged n' lines g' = .ok (out', g₁')) : out = out' := by
  induction lines generalizing n n' g g' out out' with
  | nil =>
    cases h
    cases h'
    rfl
  | cons raw rest ih =>
    obtain ⟨t, g₂, out₂, ht, hrest, rfl⟩ := passLines_cons_eq_ok h
    obtain ⟨t', g₂', out₂', ht', hrest', rfl⟩ := passLines_cons_eq_ok h'
    have hg₂ : g₂.macros.current = g₂'.macros.current := by
      rw [current_passLine hh hactive ht, current_passLine hh hactive ht', hg]
    rw [passLine_of_current hg ht ht', ih hg₂ hrest hrest']

theorem eq_nil_of_asks {i : Include} (hi : p.Asks source raw i)
    (h : p.passLine active entering tagged place raw g = .ok (t, g')) : t = [] := by
  obtain ⟨d, requested, hd, -⟩ := hi
  rcases passLine_eq_ok h with ⟨d', -, ht, -⟩ | ⟨hnone, -, -⟩
  · exact ht
  · cases hd.symm.trans hnone

/-- Where a run succeeds with an inclusion, and with the same inclusion twice in a row, the second run writes one more
empty line after it, and has macros of the same names, parameters and values in the same order. -/
theorem run_include_twice (p : Project) (source : Text) (tagged : Bool) (hh : p.tree.here.Canonical)
    {script script' raw t t' : Text} {before rest : List Text} {i : Include} {g g' : Progress}
    (hi : p.Asks source raw i) (hlines : sourceLines script = before ++ raw :: rest)
    (hlines' : sourceLines script' = before ++ raw :: raw :: rest) (h : p.run source tagged script = .ok (t, g))
    (h' : p.run source tagged script' = .ok (t', g')) :
    (∃ out₁ out₂, out₁.length = before.length ∧ Text.lines t = out₁ ++ [] :: out₂ ∧
      Text.lines t' = out₁ ++ [] :: [] :: out₂) ∧
    g'.macros.macros.map (fun m => (m.name, m.parameters, m.body)) =
      g.macros.macros.map (fun m => (m.name, m.parameters, m.body)) := by
  have hrun := run_eq_ok_iff.1 h
  have hrun' := run_eq_ok_iff.1 h'
  have hk := askSource_of_runLines hrun
  rw [hlines, runLines_eq_passLines hk] at hrun
  rw [hlines', runLines_eq_passLines hk] at hrun'
  obtain ⟨out₁, g₁, later, hbefore, hafter, hout⟩ := passLines_append_eq_ok.1 hrun
  obtain ⟨out₁', g₁', later', hbefore', hafter', hout'⟩ := passLines_append_eq_ok.1 hrun'
  cases hbefore.symm.trans hbefore'
  obtain ⟨t₁, g₂, out₂, hfirst, hrest, rfl⟩ := passLines_cons_eq_ok hafter
  obtain ⟨t₁', g₂', later₂, hfirst', hsecond, rfl⟩ := passLines_cons_eq_ok hafter'
  cases hfirst.symm.trans hfirst'
  obtain ⟨t₂, g₃, out₂', hagain, hrest', rfl⟩ := passLines_cons_eq_ok hsecond
  obtain rfl := eq_nil_of_asks hi hfirst
  obtain rfl := eq_nil_of_asks hi hagain
  let f : OpenFile := ⟨[], source, tagged⟩
  -- The second inclusion makes the assignments of the first one again.
  have hcurrent : g₂.macros.current = g₃.macros.current := by
    rw [current_passLine (f := f) hh rfl hagain, current_passLine (f := f) hh rfl hfirst, Outline.foldl_assign_twice]
  have hsame : out₂ = out₂' := passLines_of_current (f := f) hh rfl hcurrent hrest hrest'
  have hlater : g'.macros.current = g.macros.current := by
    rw [current_passLines (f := f) hh rfl hrest', current_passLines (f := f) hh rfl hrest, hcurrent]
  refine ⟨⟨out₁, out₂, length_passLines hbefore, hout, ?_⟩, MacroTable.map_eq_of_current hlater⟩
  rw [hout', hsame]

theorem run_include_twice_nested :
    let file := fun (name text : String) => ([Utf8.encode name.toList], Node.file (Utf8.encode text.toList))
    let p : Project := { tree :=
      ⟨[file "a" "#define A 1\n#include 'b'\n#define A B\nA", file "b" "#define B A\n#define B(x) x"], []⟩ }
    let source : Text := "main".toText
    let script := "#define A(y) 3\n#include 'a'\nA(2)\n#define C A".toText
    let script' := "#define A(y) 3\n#include 'a'\n#include 'a'\nA(2)\n#define C A".toText
    let counts := fun g : Progress => g.macros.macros.map fun m => m.definitions.length
    p.tree.here.Canonical ∧ ∃ i t t' g g', p.Asks source "#include 'a'".toText i ∧
      p.run source false script = .ok (t, g) ∧ p.run source false script' = .ok (t', g') ∧
      counts g = [3, 2, 1] ∧ counts g' = [5, 4, 1] ∧
      (∃ out₁ out₂, out₁.length = 1 ∧ Text.lines t = out₁ ++ [] :: out₂ ∧
        Text.lines t' = out₁ ++ [] :: [] :: out₂) ∧
      g'.macros.macros.map (fun m => (m.name, m.parameters, m.body)) =
        g.macros.macros.map (fun m => (m.name, m.parameters, m.body)) := by
  intro file p source script script' counts
  have hh : p.tree.here.Canonical := by
    intro n hn
    contradiction
  have hasked : (p.asked? source "#include 'a'".toText).isSome = true := by decide +kernel
  obtain ⟨i, hi⟩ := Option.isSome_iff_exists.1 hasked
  have hi := asked?_eq_some_iff.1 hi
  have hrun : (p.run source false script).map (fun r => counts r.2) = .ok [3, 2, 1] := by decide +kernel
  have hrun' : (p.run source false script').map (fun r => counts r.2) = .ok [5, 4, 1] := by decide +kernel
  obtain ⟨⟨t, g⟩, h, hg⟩ := exists_of_map_eq_ok hrun
  obtain ⟨⟨t', g'⟩, h', hg'⟩ := exists_of_map_eq_ok hrun'
  have hlines : sourceLines script = ["#define A(y) 3".toText] ++ "#include 'a'".toText ::
      ["A(2)".toText, "#define C A".toText] := by
    decide +kernel
  have hlines' : sourceLines script' = ["#define A(y) 3".toText] ++ "#include 'a'".toText :: "#include 'a'".toText ::
      ["A(2)".toText, "#define C A".toText] := by
    decide +kernel
  exact ⟨hh, i, t, t', g, g', hi, h, h', hg, hg', run_include_twice p source false hh hi hlines hlines' h h'⟩

end Project

end ScriptMacros
