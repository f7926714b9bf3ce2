import ScriptMacros.Proofs.Run.DepthFirst

namespace ScriptMacros

namespace Failure

def place? : Failure → Option Location
  | directive _ place => place
  | circular _ place _ | unusable _ place _ | expansion _ place _ => some place
  | unreadable _ | source .. => none

theorem location_of_diagnostic? {f : Failure} {d : Diagnostic} (h : f.diagnostic? = some d) :
    d.location = f.place? := by
  cases f with
  | directive f place =>
    cases h
    rfl
  | circular requested place chain =>
    cases h
    rfl
  | unusable requested place f =>
    cases h
    rfl
  | expansion f place line =>
    cases f with
    | recursion name count =>
      cases h
      rfl
    | noLimit =>
      cases h
      rfl
  | unreadable f => contradiction
  | source f name => contradiction

end Failure

def OpenFile.Holds (p : Project) (script : Text) (f : OpenFile) (lines : List Text) : Prop :=
  (f.outer = [] ∧ lines = sourceLines script) ∨
    (f.outer ≠ [] ∧ ∃ text, p.readText (Path.ofText f.source) = .ok text ∧ lines = sourceLines text)

namespace Project

variable {p : Project} {active : List Address} {entering : Entering p active} {tagged : Bool} {place : Location}
  {source : Text} {raw script : Text} {lines : List Text} {n : Nat} {g : Progress} {i : Include} {halt : Halt}

theorem enter_eq_error (h : p.enter active entering place i g = .error halt) :
    (∃ a, p.entry active i = .circular a ∧ halt = ⟨.circular i.requested place (active ++ [a]), active, g⟩) ∨
      (∃ f, p.entry active i = .unusable f ∧ halt = ⟨.ofRead i.requested place f, active, g⟩) ∨
      ∃ t a ha hf, p.entry active i = .text t a ha hf ∧ entering i t a ha hf g = .error halt := by
  rw [enter] at h
  split at h
  · contradiction
  · next a he =>
    cases h
    exact Or.inl ⟨a, he, rfl⟩
  · next f he =>
    cases h
    exact Or.inr (Or.inl ⟨f, he, rfl⟩)
  · next t a ha hf he => exact Or.inr (Or.inr ⟨t, a, ha, hf, he, map_eq_error_iff.1 h⟩)

theorem applyDirective_eq_error [entering.Settles] {d : Directive}
    (h : p.applyDirective active entering tagged place d g = .error halt) :
    (∃ f, halt = ⟨.directive f (some place), active, g⟩) ∨
      d.kind = .inclusion ∧ ∃ requested, Directive.fileName d.value = .ok requested ∧
        ((∃ f q, Include.resolve p.options.prefixes p.tree requested place.file = .error (f, q) ∧
            halt = ⟨.unreadable (.path f q), active, g⟩) ∨
          ∃ i, Include.resolve p.options.prefixes p.tree requested place.file = .ok i ∧
            p.enter active entering place i (g.record i) = .error halt) := by
  rw [applyDirective_eq] at h
  cases hk : d.kind with
  | define =>
    simp only [hk] at h
    split at h
    · contradiction
    · cases h
      exact Or.inl ⟨_, rfl⟩
  | inclusion =>
    simp only [hk] at h
    split at h
    · cases h
      exact Or.inl ⟨_, rfl⟩
    · next requested hr =>
      refine Or.inr ⟨rfl, requested, hr, ?_⟩
      split at h
      · next f q hi =>
        cases h
        exact Or.inl ⟨f, q, hi, rfl⟩
      · next i hi => exact Or.inr ⟨i, hi, h⟩
  | condition =>
    simp only [hk] at h
    contradiction
  | unknown =>
    simp only [hk] at h
    contradiction

theorem passLine_eq_error (h : p.passLine active entering tagged place raw g = .error halt) :
    (∃ d, Directive.ofLine? (Line.normalize raw) = some d ∧
        p.applyDirective active entering tagged place d g = .error halt) ∨
      (Directive.ofLine? (Line.normalize raw) = none ∧
        ∃ f, halt = ⟨.expansion f place (Line.normalize raw), active, g⟩) := by
  unfold passLine at h
  dsimp only at h
  split at h
  · next d hd => exact Or.inl ⟨d, hd, map_eq_error_iff.1 h⟩
  · next hd =>
    split at h
    · contradiction
    · next f hf =>
      cases h
      exact Or.inr ⟨hd, f, rfl⟩

theorem passLines_eq_error (h : p.passLines active entering source tagged n lines g = .error halt) :
    ∃ before raw rest out g', lines = before ++ raw :: rest ∧
      p.passLines active entering source tagged n before g = .ok (out, g') ∧
      p.passLine active entering tagged ⟨source, (n + before.length : Nat), 1⟩ raw g' = .error halt := by
  induction lines generalizing n g with
  | nil => contradiction
  | cons raw lines ih =>
    rw [passLines] at h
    split at h
    · next halt' hline =>
      cases h
      exact ⟨[], raw, lines, [], g, rfl, rfl, hline⟩
    · next t g₁ hline =>
      split at h
      · next halt' hrest =>
        cases h
        obtain ⟨before, raw', rest, out, g', rfl, hbefore, hraw⟩ := ih hrest
        refine ⟨raw :: before, raw', rest, t :: out, g', rfl, ?_, ?_⟩
        · rw [passLines, hline]
          dsimp only
          rw [hbefore]
        · rw [List.length_cons, Nat.add_comm before.length 1, ← Nat.add_assoc]
          exact hraw
      · contradiction

theorem act_place {l : ScriptLine} (h : p.act g l = .error halt) (hreported : halt.failure.diagnostic? ≠ none) :
    halt.failure.place? = some l.place := by
  rcases passLine_eq_error (map_eq_error_iff.1 h) with ⟨d, -, hd⟩ | ⟨-, f, rfl⟩
  · rcases applyDirective_eq_error hd with ⟨f, rfl⟩ | ⟨-, requested, -, ⟨f, q, -, rfl⟩ | ⟨i, -, hi⟩⟩
    · rfl
    · exact absurd rfl hreported
    · rcases enter_eq_error hi with ⟨a, -, rfl⟩ | ⟨f, -, rfl⟩ | ⟨t, a, ha, hf, -, he⟩
      · rfl
      · dsimp only [Failure.ofRead] at hreported ⊢
        split at hreported
        · next hf =>
          rw [if_pos hf]
          rfl
        · exact absurd rfl hreported
      · contradiction
  · rfl

/-- The pass over a file ends at a line of it: the lines before went well, and this one ended in the halt. -/
def Stops (p : Project) (script : Text) (halt : Halt) (l : ScriptLine) : Prop :=
  ∃ before rest g out g', l.file.Holds p script (before ++ l.raw :: rest) ∧ l.number = before.length + 1 ∧
    p.passLines (l.file.active p.tree.here) (p.nested _) l.file.source l.file.tagged 1 before g = .ok (out, g') ∧
    p.passLine (l.file.active p.tree.here) (p.nested _) l.file.tagged l.place l.raw g' = .error halt

/-- The lines at which open files stop, from a file inwards, all with one halt. Each of them but the last includes the
file of the next one; the last fails by itself. -/
inductive Trail (p : Project) (script : Text) (halt : Halt) : OpenFile → List ScriptLine → Prop
  | last {l : ScriptLine} {g : Progress} : p.Stops script halt l → p.act g l = .error halt →
      Trail p script halt l.file [l]
  | next {l : ScriptLine} {i : Include} {trail : List ScriptLine} : p.Stops script halt l →
      p.Asks l.file.source l.raw i → Trail p script halt (l.file.nested i) trail →
      Trail p script halt l.file (l :: trail)

theorem Trail.exists_last {f : OpenFile} {trail : List ScriptLine} (h : p.Trail script halt f trail) :
    ∃ l g, trail.getLast? = some l ∧ p.act g l = .error halt ∧ l.file.names = f.outer ++ trail.map (·.file.source) := by
  induction h with
  | @last l g _ hl => exact ⟨l, g, rfl, hl, rfl⟩
  | @next l i trail _ _ _ ih =>
    obtain ⟨m, g, hm, hfails, hnames⟩ := ih
    refine ⟨m, g, ?_, hfails, ?_⟩
    · rw [List.getLast?_cons, hm]
      rfl
    · rw [hnames, OpenFile.nested, OpenFile.names, List.append_assoc]
      rfl

theorem holds_nested {f : OpenFile} {e : Target p active} (hh : p.tree.here.Canonical)
    (h : p.target? active source raw = some e) : (f.nested e.inclusion).Holds p script (sourceLines e.text) := by
  obtain ⟨hi, he⟩ := target?_eq_some h
  obtain ⟨requested, hresolve⟩ := hi.resolves
  refine Or.inr ⟨?_, e.text, ?_, rfl⟩
  · simp [OpenFile.nested, OpenFile.names]
  · rw [OpenFile.nested, Path.ofText_toText (Include.sound_of_resolve hh hresolve)]
    exact (entry_read he).2.2

theorem exists_trail (hh : p.tree.here.Canonical) {f : OpenFile} (hactive : active = f.active p.tree.here)
    (hlines : f.Holds p script lines)
    (h : p.passLines active (p.nested active) f.source f.tagged 1 lines g = .error halt) :
    ∃ trail, p.Trail script halt f trail := by
  -- The file that the failing line enters, if it enters one, has one address less left to enter.
  induction hk : p.tree.remaining active using Nat.strongRecOn generalizing active f lines g with
  | _ k ih =>
    subst hactive
    obtain ⟨before, raw, rest, out, g', rfl, hbefore, hraw⟩ := passLines_eq_error h
    rw [Nat.add_comm 1] at hraw
    have hstops : p.Stops script halt ⟨f, before.length + 1, raw⟩ :=
      ⟨before, rest, g, out, g', hlines, rfl, hbefore, hraw⟩
    have hresult := map_eq_error_iff (f := Prod.snd).2 hraw
    cases ht : p.target? (f.active p.tree.here) f.source raw with
    | none =>
      rw [passLine_of_target_eq_none rfl ht] at hresult
      exact ⟨_, .last hstops hresult⟩
    | some e =>
      rw [passLine_of_target ht, map_eq_error_iff, nested, pass_eq] at hresult
      have hlt : p.tree.remaining (f.active p.tree.here ++ [e.address]) < k :=
        hk ▸ FileTree.remaining_lt e.inactive e.isFile
      obtain ⟨trail, htrail⟩ := ih _ hlt (Target.active_nested hh rfl ht) (holds_nested hh ht) hresult rfl
      exact ⟨_, .next hstops (target?_eq_some ht).1 htrail⟩

def Arrives (p : Project) (source : Text) (tagged : Bool) (script : Text) (l : ScriptLine) (g : Progress) : Prop :=
  FileTree.askSource source = .ok () ∧
    ∃ before after, p.scriptLines source tagged script = before ++ l :: after ∧ before.foldlM p.act {} = .ok g

theorem exists_arrives (hh : p.tree.here.Canonical) (h : p.run source tagged script = .error halt) :
    (∃ f, FileTree.askSource source = .error f ∧ halt = ⟨.source f source, [], {}⟩) ∨
      ∃ l g, p.Arrives source tagged script l g ∧ p.act g l = .error halt := by
  rw [run_eq_error_iff] at h
  cases hs : FileTree.askSource source with
  | error f =>
    rw [runLines, hs] at h
    exact Or.inl ⟨f, rfl, (Except.error.inj h).symm⟩
  | ok k =>
    have hlines := p.runLines_eq_foldlM hh hs tagged script
    rw [h] at hlines
    obtain ⟨before, l, after, g, hsplit, hbefore, hl⟩ := exists_of_foldlM_eq_error hlines.symm
    exact Or.inr ⟨l, g, ⟨hs, before, after, hsplit, hbefore⟩, hl⟩

theorem Arrives.run_eq_error (h : p.Arrives source tagged script l g) (hh : p.tree.here.Canonical)
    (hl : p.act g l = .error halt) : p.run source tagged script = .error halt := by
  obtain ⟨hk, before, after, hsplit, hbefore⟩ := h
  have hlines := p.runLines_eq_foldlM hh hk tagged script
  rw [hsplit, List.foldlM_append, hbefore] at hlines
  change _ = (l :: after).foldlM p.act g at hlines
  rw [List.foldlM_cons, hl] at hlines
  rw [run_eq_error_iff]
  exact map_eq_error_iff.1 hlines

/-- A run that fails with a report fails at a line of the innermost open file, and the report tells the name of that
file and the number of the line in it. At the lines that led there, the files around end in the same halt: the first
line has placed the failure, and no line after it changes a failure that has a place. -/
theorem run_error_located (p : Project) (source : Text) (tagged : Bool) (script : Text)
    (hh : p.tree.here.Canonical) {halt : Halt} {d : Diagnostic} (h : p.run source tagged script = .error halt)
    (hd : halt.failure.diagnostic? = some d) :
    ∃ trail l, p.Trail script halt ⟨[], source, tagged⟩ trail ∧ trail.getLast? = some l ∧
      d.location = some ⟨l.file.source, l.number, 1⟩ ∧ (∀ m ∈ trail, halt.located m.place = halt) ∧
      halt.active = trail.map (fun m => (Path.ofText m.file.source).address p.tree.here) ∧
      halt.active.getLast? = some ((Path.ofText l.file.source).address p.tree.here) := by
  rw [run_eq_error_iff] at h
  cases hs : FileTree.askSource source with
  | error f =>
    rw [runLines, hs] at h
    cases h
    contradiction
  | ok k =>
    rw [runLines_eq_passLines hs] at h
    obtain ⟨trail, htrail⟩ := exists_trail hh (f := ⟨[], source, tagged⟩) rfl (Or.inl ⟨rfl, rfl⟩) h
    obtain ⟨l, g, hl, hfails, hnames⟩ := htrail.exists_last
    have hactive := (act_eq_error hfails).1
    have hplace : halt.failure.place? = some l.place := by
      apply act_place hfails
      rw [hd]
      exact Option.some_ne_none d
    refine ⟨trail, l, htrail, hl, ?_, ?_, ?_, ?_⟩
    · rw [Failure.location_of_diagnostic? hd, hplace]
      rfl
    · intro m _
      exact settled_of_passLines h m.place
    · rw [hactive, OpenFile.active, hnames, List.nil_append, List.map_map]
      rfl
    · rw [hactive, OpenFile.active, OpenFile.names, List.map_append, List.getLast?_append]
      rfl

theorem run_error_located_nested :
    let file := fun (name text : String) => ([Utf8.encode name.toList], Node.file (Utf8.encode text.toList))
    let p : Project := { tree := ⟨[file "a" "\nA\n#include 'b'", file "b" "A\n\n#define (A)"], []⟩ }
    let source : Text := "main".toText
    let script := "#define A 1\n#include 'a'\n#define".toText
    p.tree.here.Canonical ∧ ∃ halt d trail l, p.run source false script = .error halt ∧
      halt.failure.diagnostic? = some d ∧ d.message = "#define without a macro name".toText ∧
      d.location = some ⟨"/b".toText, 3, 1⟩ ∧ p.Trail script halt ⟨[], source, false⟩ trail ∧
      trail.getLast? = some l ∧ l.file.source = "/b".toText ∧ l.number = 3 ∧ trail.length = 3 := by
  intro file p source script
  have hh : p.tree.here.Canonical := by
    intro n hn
    contradiction
  have hrun : (p.run source false script).mapError (fun halt => (halt.failure, halt.active)) = .error
      (.directive .noMacroName (some ⟨"/b".toText, 3, 1⟩), [[source], ["a".toText], ["b".toText]]) := by
    decide +kernel
  obtain ⟨halt, h, hhalt⟩ := exists_of_mapError_eq_error hrun
  obtain ⟨hfailure, hopen⟩ := Prod.mk.inj hhalt
  have hd : halt.failure.diagnostic? = some
      { message := "#define without a macro name".toText, location := some ⟨"/b".toText, 3, 1⟩ } := by
    rw [hfailure]
    rfl
  obtain ⟨trail, l, htrail, hl, hplace, -, hactive, -⟩ := run_error_located p source false script hh h hd
  have hlen := congrArg List.length (hactive.symm.trans hopen)
  rw [List.length_map] at hlen
  obtain ⟨hfile, hnumber, -⟩ := Location.mk.inj (Option.some.inj hplace)
  exact ⟨hh, halt, _, trail, l, h, hd, rfl, rfl, htrail, hl, hfile.symm, (Int.ofNat.inj hnumber).symm, hlen⟩

end Project

end ScriptMacros
