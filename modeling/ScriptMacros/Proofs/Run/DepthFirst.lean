import ScriptMacros.Proofs.Run.Inlining

/-!
A run line by line. The files to enter follow from the lines alone, so all lines, those of nested files included, can
be listed in the order in which they are dealt with. A run is made of what the lines do one by one, and one that ends
early has the progress of the lines before the one that failed.
-/

namespace ScriptMacros

structure OpenFile where
  outer : List Text
  source : Text
  tagged : Bool

namespace OpenFile

def names (f : OpenFile) : List Text := f.outer ++ [f.source]

def active (here : Address) (f : OpenFile) : List Address := f.names.map fun n => (Path.ofText n).address here

def nested (f : OpenFile) (i : Include) : OpenFile := ⟨f.names, i.path.toText, true⟩

theorem active_nested {here : Address} {f : OpenFile} {i : Include} (h : i.path.Sound) :
    (f.nested i).active here = f.active here ++ [i.path.address here] := by
  rw [active, nested, names, List.map_append, List.map_singleton, Path.ofText_toText h]
  rfl

end OpenFile

structure ScriptLine where
  file : OpenFile
  number : Nat
  raw : Text

def ScriptLine.place (l : ScriptLine) : Location := ⟨l.file.source, l.number, 1⟩

namespace Project

variable {p : Project} {active : List Address} {entering entering' : Entering p active} {tagged : Bool}
  {place : Location} {source : Text} {raw : Text} {g g' : Progress} {i : Include} {halt : Halt}

def asked? (p : Project) (source : Text) (raw : Text) : Option Include :=
  match Directive.ofLine? (Line.normalize raw) with
  | none => none
  | some d =>
    if d.kind = .inclusion then
      match Directive.fileName d.value with
      | .error _ => none
      | .ok requested => (Include.resolve p.options.prefixes p.tree requested source).toOption
    else none

theorem asked?_eq_some_iff : p.asked? source raw = some i ↔ p.Asks source raw i := by
  constructor
  · intro h
    rw [asked?] at h
    split at h
    · contradiction
    · next d hd =>
      split at h
      · next hk =>
        split at h
        · contradiction
        · next requested hr =>
          cases hi : Include.resolve p.options.prefixes p.tree requested source with
          | error e =>
            rw [hi] at h
            contradiction
          | ok j =>
            rw [hi] at h
            obtain rfl : j = i := Option.some.inj h
            exact ⟨d, requested, hd, hk, hr, hi⟩
      · contradiction
  · rintro ⟨d, requested, hd, hk, hr, hi⟩
    rw [asked?]
    simp only [hd, hk, hr, hi]
    rfl

structure Target (p : Project) (active : List Address) where
  inclusion : Include
  text : Text
  address : Address
  inactive : address ∉ active
  isFile : address ∈ p.tree.addresses

def target? (p : Project) (active : List Address) (source : Text) (raw : Text) : Option (Target p active) :=
  match p.asked? source raw with
  | none => none
  | some i =>
    match p.entry active i with
    | .text t a ha hf => some ⟨i, t, a, ha, hf⟩
    | _ => none

theorem target?_eq_some {e : Target p active} (h : p.target? active source raw = some e) :
    p.Asks source raw e.inclusion ∧ p.entry active e.inclusion = .text e.text e.address e.inactive e.isFile := by
  rw [target?] at h
  split at h
  · contradiction
  · next i hi =>
    split at h
    · next t a ha hf he =>
      cases h
      exact ⟨asked?_eq_some_iff.1 hi, he⟩
    · contradiction

theorem entry_ne_text {t : Text} {a : Address} {ha : a ∉ active} {hf : a ∈ p.tree.addresses}
    (h : p.target? active source raw = none) (hi : p.Asks source raw i) : p.entry active i ≠ .text t a ha hf := by
  intro he
  rw [target?, asked?_eq_some_iff.2 hi] at h
  simp only [he] at h
  contradiction

/-- All lines that there are to deal with. After a line that enters a file come the lines of that file. -/
def depthFirst (p : Project) (active : List Address) (f : OpenFile) : (number : Nat) → List Text → List ScriptLine
  | _, [] => []
  | n, raw :: rest =>
    match p.target? active f.source raw with
    | none => ⟨f, n, raw⟩ :: p.depthFirst active f (n + 1) rest
    | some e =>
      ⟨f, n, raw⟩ :: p.depthFirst (active ++ [e.address]) (f.nested e.inclusion) 1 (sourceLines e.text) ++
        p.depthFirst active f (n + 1) rest
termination_by _ lines => (p.tree.remaining active, lines.length)
decreasing_by
  · exact Prod.Lex.right _ (Nat.lt_succ_self rest.length)
  · exact Prod.Lex.left _ _ (FileTree.remaining_lt e.inactive e.isFile)
  · exact Prod.Lex.right _ (Nat.lt_succ_self rest.length)

def skip : Entering p active := fun _ _ _ _ _ g => .ok ([], g)

instance skip_settles : Entering.Settles (skip : Entering p active) where
  settled h := nomatch h

def act (p : Project) (g : Progress) (l : ScriptLine) : Except Halt Progress :=
  (p.passLine (l.file.active p.tree.here) skip l.file.tagged l.place l.raw g).map (·.2)

theorem Asks.passLine [entering.Settles] (h : p.Asks place.file raw i) :
    p.passLine active entering tagged place raw g =
      (p.enter active entering place i (g.record i)).map ([], ·) := by
  obtain ⟨d, -, hd, -⟩ := id h
  rw [Project.passLine]
  simp only [hd]
  rw [h.applyDirective hd rfl]

theorem passLine_of_not_asks (h : ∀ i, ¬ p.Asks place.file raw i) :
    (∃ r, ∀ entering : Entering p active, p.passLine active entering tagged place raw g = .ok r) ∨
      ∃ failure, ∀ entering : Entering p active,
        p.passLine active entering tagged place raw g = .error ⟨failure, active, g⟩ := by
  simp only [passLine]
  cases hd : Directive.ofLine? (Line.normalize raw) with
  | none =>
    cases g.macros.expand p.options.limit (Line.normalize raw) with
    | ok t => exact Or.inl ⟨(t, g), fun _ => rfl⟩
    | error f => exact Or.inr ⟨_, fun _ => rfl⟩
  | some d =>
    simp only [applyDirective, dispatch]
    cases hk : d.kind with
    | define =>
      cases Declaration.parse d.value with
      | ok e => exact Or.inl ⟨_, fun _ => rfl⟩
      | error f => exact Or.inr ⟨_, fun _ => rfl⟩
    | inclusion =>
      cases hr : Directive.fileName d.value with
      | error f => exact Or.inr ⟨_, fun _ => rfl⟩
      | ok requested =>
        dsimp only
        cases hi : Include.resolve p.options.prefixes p.tree requested place.file with
        | error e => exact Or.inr ⟨_, fun _ => rfl⟩
        | ok i => exact absurd ⟨d, requested, hd, hk, hr, hi⟩ (h i)
    | condition => exact Or.inl ⟨_, fun _ => rfl⟩
    | unknown => exact Or.inl ⟨_, fun _ => rfl⟩

theorem enter_congr (h : ∀ t a ha hf, p.entry active i ≠ .text t a ha hf) :
    p.enter active entering place i g = p.enter active entering' place i g := by
  rw [enter, enter]
  cases he : p.entry active i with
  | absent => rfl
  | circular a => rfl
  | unusable f => rfl
  | text t a ha hf => exact absurd he (h t a ha hf)

section

variable {f : OpenFile} {n : Nat} {e : Target p active}

theorem passLine_of_target [entering.Settles] (h : p.target? active source raw = some e) :
    (p.passLine active entering tagged ⟨source, n, 1⟩ raw g).map (·.2) =
      (entering e.inclusion e.text e.address e.inactive e.isFile (g.record e.inclusion)).map (·.2) := by
  obtain ⟨hi, he⟩ := target?_eq_some h
  have hline : p.Asks (Location.mk source n 1).file raw e.inclusion := hi
  rw [hline.passLine, map_map, enter, he]
  dsimp only
  rw [map_map]

theorem passLine_of_target_eq_none [entering.Settles] (hactive : active = f.active p.tree.here)
    (h : p.target? active f.source raw = none) :
    (p.passLine active entering f.tagged ⟨f.source, n, 1⟩ raw g).map (·.2) = p.act g ⟨f, n, raw⟩ := by
  subst hactive
  rw [act, ScriptLine.place]
  by_cases hi : ∃ i, p.Asks (Location.mk f.source n 1).file raw i
  · obtain ⟨i, hi⟩ := hi
    rw [hi.passLine, hi.passLine, enter_congr fun t a ha hf => entry_ne_text h hi]
  · rcases passLine_of_not_asks (not_exists.1 hi) with ⟨r, hr⟩ | ⟨failure, hr⟩
    · rw [hr, hr]
    · rw [hr, hr]

theorem act_of_target (hactive : active = f.active p.tree.here) (h : p.target? active f.source raw = some e) :
    p.act g ⟨f, n, raw⟩ = .ok (g.record e.inclusion) := by
  subst hactive
  exact passLine_of_target h

end

theorem Target.active_nested {f : OpenFile} {e : Target p active} (hh : p.tree.here.Canonical)
    (hactive : active = f.active p.tree.here) (h : p.target? active source raw = some e) :
    active ++ [e.address] = (f.nested e.inclusion).active p.tree.here := by
  obtain ⟨hi, he⟩ := target?_eq_some h
  obtain ⟨requested, hresolve⟩ := hi.resolves
  rw [OpenFile.active_nested (Include.sound_of_resolve hh hresolve), ← hactive, (entry_eq_text he).1]

theorem passLines_cons_snd {n : Nat} {rest : List Text} (inner : List ScriptLine) {later : List ScriptLine}
    (hline : (p.passLine active entering tagged ⟨source, n, 1⟩ raw g).map (·.2) = inner.foldlM p.act g)
    (hrest : ∀ g, (p.passLines active entering source tagged (n + 1) rest g).map (·.2) = later.foldlM p.act g) :
    (p.passLines active entering source tagged n (raw :: rest) g).map (·.2) = (inner ++ later).foldlM p.act g := by
  rw [passLines_cons_map, List.foldlM_append, ← hline]
  cases p.passLine active entering tagged ⟨source, n, 1⟩ raw g with
  | error halt => rfl
  | ok r => exact hrest r.2

theorem passLines_eq_foldlM (hh : p.tree.here.Canonical) {f : OpenFile} {n : Nat} {lines : List Text}
    (hactive : active = f.active p.tree.here) :
    (p.passLines active (p.nested active) f.source f.tagged n lines g).map (·.2) =
      (p.depthFirst active f n lines).foldlM p.act g := by
  fun_induction depthFirst p active f n lines generalizing g with
  | case1 => rfl
  | case2 active f n raw rest hnone ih =>
    -- No file is entered, so the line does no more than it does by itself.
    refine passLines_cons_snd [⟨f, n, raw⟩] ?_ fun g => ih hactive
    rw [passLine_of_target_eq_none hactive hnone, List.foldlM_cons]
    exact (bind_pure _).symm
  | case3 active f n raw rest e he ihinner ih =>
    refine passLines_cons_snd (⟨f, n, raw⟩ :: _) ?_ fun g => ih hactive
    rw [List.foldlM_cons, act_of_target hactive he, passLine_of_target he, nested, pass_eq]
    exact ihinner (Target.active_nested hh hactive he)

def scriptLines (p : Project) (source : Text) (tagged : Bool) (script : Text) : List ScriptLine :=
  p.depthFirst [(Path.ofText source).address p.tree.here] ⟨[], source, tagged⟩ 1 (sourceLines script)

theorem runLines_eq_foldlM (hh : p.tree.here.Canonical) (hk : FileTree.askSource source = .ok ())
    (tagged : Bool) (script : Text) :
    (p.runLines source tagged (sourceLines script)).map (·.2) =
      (p.scriptLines source tagged script).foldlM p.act {} := by
  rw [runLines_eq_passLines hk]
  exact p.passLines_eq_foldlM hh (f := ⟨[], source, tagged⟩) rfl

/-- What a line adds that ends a run: the record of an inclusion of a file that is there and cannot be dealt with, and
nothing else. -/
def Adds (p : Project) (active : List Address) (l : ScriptLine) (g g' : Progress) : Prop :=
  (∃ i, p.Asks l.file.source l.raw i ∧ i.found = true ∧
      ((∃ a, p.entry active i = .circular a) ∨ ∃ f, p.entry active i = .unusable f) ∧ g' = g.record i) ∨
    ((∀ i, p.Asks l.file.source l.raw i → i.found = false) ∧ g' = g)

theorem found_of_refused (h : (∃ a, p.entry active i = .circular a) ∨ ∃ f, p.entry active i = .unusable f) :
    i.found = true := by
  rcases h with ⟨a, h⟩ | ⟨f, h⟩
  · exact (entry_eq_circular h).2.2
  · exact (entry_eq_unusable h).1

theorem enter_skip_eq_error (h : p.enter active skip place i g = .error halt) :
    halt.active = active ∧ halt.progress = g ∧
      ((∃ a, p.entry active i = .circular a) ∨ ∃ f, p.entry active i = .unusable f) := by
  rw [enter] at h
  split at h
  · contradiction
  · next a he =>
    cases h
    exact ⟨rfl, rfl, Or.inl ⟨a, he⟩⟩
  · next f he =>
    cases h
    exact ⟨rfl, rfl, Or.inr ⟨f, he⟩⟩
  · contradiction

theorem act_eq_error {l : ScriptLine} (h : p.act g l = .error halt) :
    halt.active = l.file.active p.tree.here ∧ p.Adds halt.active l g halt.progress := by
  rw [act] at h
  by_cases hi : ∃ i, p.Asks l.place.file l.raw i
  · obtain ⟨i, hi⟩ := hi
    rw [hi.passLine, map_map] at h
    cases he : p.enter (l.file.active p.tree.here) skip l.place i (g.record i) with
    | ok g' =>
      rw [he] at h
      contradiction
    | error halt' =>
      rw [he] at h
      obtain rfl : halt' = halt := Except.error.inj h
      obtain ⟨hactive, hprogress, hentry⟩ := enter_skip_eq_error he
      rw [hactive]
      exact ⟨rfl, Or.inl ⟨i, hi, found_of_refused hentry, hentry, hprogress⟩⟩
  · rcases passLine_of_not_asks (not_exists.1 hi) with ⟨r, hr⟩ | ⟨failure, hr⟩
    · rw [hr] at h
      contradiction
    · rw [hr] at h
      cases h
      exact ⟨rfl, Or.inr ⟨fun i ha => absurd ⟨i, ha⟩ hi, rfl⟩⟩

/-- A run that fails does so before any line, or at a line that leaves the progress of the lines before it, apart from
its own record, while the files are open that lead to it. -/
theorem run_fails_at_line (p : Project) (source : Text) (tagged : Bool) (script : Text)
    (hh : p.tree.here.Canonical) {halt : Halt} (h : p.run source tagged script = .error halt) :
    (∃ f, FileTree.askSource source = .error f ∧ halt = ⟨.source f source, [], {}⟩) ∨
      ∃ before l after g, p.scriptLines source tagged script = before ++ l :: after ∧
        before.foldlM p.act {} = .ok g ∧ p.act g l = .error halt ∧
        halt.active = l.file.names.map (fun n => (Path.ofText n).address p.tree.here) ∧
        p.Adds halt.active l g halt.progress := by
  rw [run_eq_error_iff] at h
  cases hs : FileTree.askSource source with
  | error f =>
    rw [runLines, hs] at h
    exact Or.inl ⟨f, rfl, (Except.error.inj h).symm⟩
  | ok k =>
    have hlines := p.runLines_eq_foldlM hh hs tagged script
    rw [h] at hlines
    obtain ⟨before, l, after, g, hsplit, hbefore, hl⟩ := exists_of_foldlM_eq_error hlines.symm
    obtain ⟨hactive, hadds⟩ := act_eq_error hl
    exact Or.inr ⟨before, l, after, g, hsplit, hbefore, hl, hactive, hadds⟩

theorem run_fails_at_line_nested :
    let file := fun (name text : String) (r : Rights) =>
      ([Utf8.encode name.toList], Node.file (Utf8.encode text.toList) r)
    let a := file "a" "#define B 1\n#include 'b'\n#define E" {}
    let b := file "b" "#define C 2\nA\n#include './a'\n#define D"
    let p : Project := { tree := ⟨[a, b {}], []⟩ }
    let locked : Project := { tree := ⟨[a, b { read := false }], []⟩ }
    let source : Text := "main".toText
    let script := "#define A B\n#include 'c'\n#include 'a'\n#define F".toText
    p.tree.here.Canonical ∧ (∃ halt before l after g, p.run source false script = .error halt ∧
      halt.active = [[source], ["a".toText], ["b".toText]] ∧
      halt.progress.macros.names = ["A".toText, "B".toText, "C".toText] ∧
      halt.progress.includes.map (·.requested) = ["c".toText, "a".toText, "b".toText, "./a".toText] ∧
      p.scriptLines source false script = before ++ l :: after ∧ before.foldlM p.act {} = .ok g ∧
      p.act g l = .error halt ∧ halt.active = l.file.names.map (fun n => (Path.ofText n).address p.tree.here) ∧
      p.Adds halt.active l g halt.progress) ∧
    ∃ halt before l after g, locked.run source false script = .error halt ∧
      halt.failure = .unusable ['b'] ⟨"/a".toText, 2, 1⟩ (.path .denied ⟨.root, ["b".toText]⟩) ∧
      halt.progress.includes.map (·.requested) = ["c".toText, "a".toText, "b".toText] ∧
      locked.scriptLines source false script = before ++ l :: after ∧ before.foldlM locked.act {} = .ok g ∧
      locked.Adds halt.active l g halt.progress := by
  intro file a b p locked source script
  have hh : p.tree.here.Canonical := by
    intro n hn
    contradiction
  have hrun : (p.run source false script).mapError (fun halt =>
      (halt.active, halt.progress.macros.names, halt.progress.includes.map (·.requested))) = .error
        ([[source], ["a".toText], ["b".toText]], ["A".toText, "B".toText, "C".toText],
          ["c".toText, "a".toText, "b".toText, "./a".toText]) := by
    decide +kernel
  obtain ⟨halt, h, hhalt⟩ := exists_of_mapError_eq_error hrun
  simp only [Prod.mk.injEq] at hhalt
  obtain ⟨hactive, hnames, hincludes⟩ := hhalt
  have hrun' : (locked.run source false script).mapError (fun halt =>
      (halt.failure, halt.progress.includes.map (·.requested))) = .error
        (.unusable ['b'] ⟨"/a".toText, 2, 1⟩ (.path .denied ⟨.root, ["b".toText]⟩),
          ["c".toText, "a".toText, "b".toText]) := by
    decide +kernel
  obtain ⟨halt', h', hhalt'⟩ := exists_of_mapError_eq_error hrun'
  obtain ⟨hfailure', hincludes'⟩ := Prod.mk.inj hhalt'
  refine ⟨hh, ?_, ?_⟩
  · rcases p.run_fails_at_line source false script hh h with ⟨f, -, rfl⟩ | ⟨before, l, after, g, hline⟩
    · exact absurd hactive.symm (List.cons_ne_nil _ _)
    · exact ⟨halt, before, l, after, g, h, hactive, hnames, hincludes, hline⟩
  · rcases locked.run_fails_at_line source false script hh h' with ⟨f, -, rfl⟩ |
      ⟨before, l, after, g, hlines, hbefore, -, -, hadds⟩
    · exact absurd hincludes'.symm (List.cons_ne_nil _ _)
    · exact ⟨halt', before, l, after, g, h', hfailure', hincludes', hlines, hbefore, hadds⟩

end Project

end ScriptMacros
