import ScriptMacros.Proofs.FileTree
import ScriptMacros.Proofs.Run.Failing

namespace ScriptMacros

structure Path.Short (q : Path) : Prop where
  text : FileTree.byteCount q.toText < FileTree.pathLimit
  names : ∀ n ∈ q.names, FileTree.byteCount n ≤ FileTree.nameLimit

namespace FileTree

variable {t : FileTree} {q : Path} {f : Fault}

theorem isFile_eq_error_iff : t.isFile q = .error f ↔ (f = .nameTooLong ∨ f = .denied) ∧ t.find q = .error f := by
  rw [isFile]
  cases t.find q with
  | ok r =>
    obtain ⟨a, n⟩ := r
    cases n <;> simp
  | error f' => cases f' <;> cases f <;> simp

theorem isFile_eq_ok_true (h : t.isFile q = .ok true) : ∃ a bytes r, t.find q = .ok (a, .file bytes r) := by
  rw [isFile] at h
  split at h
  · next a bytes r hf => exact ⟨a, bytes, r, hf⟩
  all_goals cases h

theorem isFile_of_read {bytes : List UInt8} (h : t.read q = .ok bytes) : t.isFile q = .ok true := by
  rw [read] at h
  split at h
  · next hf => rw [isFile, hf]
  · contradiction
  · contradiction

theorem read_eq_error (h : t.isFile q = .ok true) (hread : t.read q = .error f) : f = .denied := by
  obtain ⟨a, bytes, r, hf⟩ := isFile_eq_ok_true h
  rw [read, hf] at hread
  dsimp only at hread
  split at hread
  · contradiction
  · cases hread
    rfl

def Searchable (t : FileTree) : Prop := ∀ q r, (q, Node.directory r) ∈ t.nodes → r.read = true

theorem byteCount_of_soundLength {whole : Text} {k : Nat} (h : soundLength whole = .ok k) :
    byteCount whole = k := by
  obtain ⟨bytes, hbytes, rfl⟩ := soundLength_eq_ok h
  rw [byteCount, hbytes]
  rfl

theorem isOfSystem_of_soundLength {whole : Text} (h : soundLength whole = .error f) : f.isOfSystem = false := by
  rcases soundLength_eq_error h with rfl | ⟨e, rfl⟩ <;> rfl

theorem Searchable.read_of_node? {a : Address} {r : Rights} (ht : t.Searchable) (h : t.node? a = some (.directory r)) :
    r.read = true := by
  rw [node?] at h
  split at h
  · cases h
    rfl
  · split at h
    · exact ht _ r (Association.mem_keys_of_get? h)
    · contradiction

theorem exists_long_of_walk {a : Address} {ns : List Text} (ht : t.Searchable) (h : t.walk a ns = .error f)
    (hf : f = .nameTooLong ∨ f = .denied) : ∃ n ∈ ns, nameLimit < byteCount n := by
  induction ns generalizing a with
  | nil => contradiction
  | cons n ns ih =>
    rw [walk] at h
    split at h
    · cases h
      simp at hf
    · cases h
      simp at hf
    · next r hnode =>
      rw [if_pos (ht.read_of_node? hnode)] at h
      split at h
      · next hn => exact ⟨n, List.mem_cons_self, hn⟩
      · obtain ⟨m, hm, hlong⟩ := ih h
        exact ⟨m, List.mem_cons_of_mem n hm, hlong⟩

theorem isFile_of_short (ht : t.Searchable) (hq : q.Short) : ∃ found, t.isFile q = .ok found := by
  cases h : t.isFile q with
  | ok found => exact ⟨found, rfl⟩
  | error f =>
    obtain ⟨hf, hfind⟩ := isFile_eq_error_iff.1 h
    have hsystem : f.isOfSystem = true := by rcases hf with rfl | rfl <;> rfl
    rw [find, locate] at hfind
    split at hfind
    · next hs =>
      cases hfind
      rw [isOfSystem_of_soundLength hs] at hsystem
      contradiction
    · next k hk =>
      have hlength := hq.text
      rw [byteCount_of_soundLength hk] at hlength
      rw [if_neg (Nat.not_le.2 hlength)] at hfind
      split at hfind
      · next hwalk =>
        cases hfind
        obtain ⟨n, hn, hlong⟩ := exists_long_of_walk ht hwalk hf
        exact absurd (hq.names n hn) (Nat.not_le.2 hlong)
      · split at hfind
        · cases hfind
          simp at hf
        · contradiction

end FileTree

theorem Include.resolve_eq_error {prefixes : PrefixMap} {tree : FileTree} {requested : Text} {source : Text}
    {f : FileTree.Fault} {q : Path} (h : resolve prefixes tree requested source = .error (f, q)) :
    q = target tree.here source (prefixes.resolve requested) ∧ tree.isFile q = .error f := by
  unfold resolve at h
  dsimp only at h
  split at h
  · contradiction
  · next f' hf =>
    cases h
    exact ⟨rfl, hf⟩

def ScriptLine.Requests (l : ScriptLine) (requested : Text) : Prop :=
  ∃ d, Directive.ofLine? (Line.normalize l.raw) = some d ∧ d.kind = .inclusion ∧
    Directive.fileName d.value = .ok requested

namespace Project

variable {p : Project} {active : List Address} {source : Text} {tagged : Bool} {script requested : Text}
  {l : ScriptLine} {g : Progress} {i : Include} {halt : Halt} {c : Codec}

def requestedPath (p : Project) (l : ScriptLine) (requested : Text) : Path :=
  Include.target p.tree.here l.file.source (p.options.prefixes.resolve requested)

def requestedInclude (p : Project) (l : ScriptLine) (requested : Text) (found : Bool) : Include :=
  ⟨p.options.prefixes.resolve requested, l.file.source, requested, p.requestedPath l requested, found⟩

theorem resolve_requested (p : Project) (l : ScriptLine) (requested : Text) :
    Include.resolve p.options.prefixes p.tree requested l.file.source =
      match p.tree.isFile (p.requestedPath l requested) with
      | .ok found => .ok (p.requestedInclude l requested found)
      | .error f => .error (f, p.requestedPath l requested) := rfl

theorem readText_eq_error {path : Path} {f : ReadFault} (hc : p.codec = .ok c) (h : p.readText path = .error f) :
    (∃ f', p.tree.read path = .error f' ∧ f = .path f' path) ∨
      ∃ bytes b, p.tree.read path = .ok bytes ∧ c.decode bytes = .error b ∧ f = .bytes b := by
  obtain ⟨plain, hplain⟩ := Codecs.soundName_of_find hc
  rw [readText, hplain] at h
  dsimp only at h
  split at h
  · next bytes hread =>
    rw [decode, hc] at h
    dsimp only at h
    split at h
    · contradiction
    · next b hb =>
      cases h
      exact Or.inr ⟨bytes, b, hread, hb, rfl⟩
  · next f' hread =>
    cases h
    exact Or.inl ⟨f', hread, rfl⟩

/-- How a line fails without a report when the encoding is known. In the first case nothing can be found out about the
path that it asks for, in the second one the file is there, is not open and has no text. -/
inductive Escapes (p : Project) (c : Codec) (l : ScriptLine) (g : Progress) : Halt → Prop
  | unasked {requested : Text} {f : FileTree.Fault} : l.Requests requested →
      p.tree.isFile (p.requestedPath l requested) = .error f →
      Escapes p c l g ⟨.unreadable (.path f (p.requestedPath l requested)), l.file.active p.tree.here, g⟩
  | undecoded {requested : Text} {bytes : List UInt8} {message : Text} : l.Requests requested →
      p.tree.read (p.requestedPath l requested) = .ok bytes →
      (p.requestedPath l requested).address p.tree.here ∉ l.file.active p.tree.here →
      c.decode bytes = .error (.other message) →
      Escapes p c l g ⟨.unreadable (.bytes (.other message)), l.file.active p.tree.here,
        g.record (p.requestedInclude l requested true)⟩

theorem resolve_eq_requested (hr : Include.resolve p.options.prefixes p.tree requested l.file.source = .ok i) :
    i = p.requestedInclude l requested i.found ∧ p.tree.isFile i.path = .ok i.found := by
  rw [resolve_requested] at hr
  split at hr
  · next found hfound =>
    cases hr
    exact ⟨rfl, hfound⟩
  · contradiction

theorem act_unreported (hc : p.codec = .ok c) (h : p.act g l = .error halt) (hd : halt.failure.diagnostic? = none) :
    p.Escapes c l g halt := by
  rcases passLine_eq_error (map_eq_error_iff.1 h) with ⟨d, hline, ha⟩ | ⟨-, f, rfl⟩
  · rcases applyDirective_eq_error ha with ⟨f, rfl⟩ | ⟨hk, requested, hr, ⟨f, q, hi, rfl⟩ | ⟨i, hi, henter⟩⟩
    · contradiction
    · obtain ⟨rfl, hf⟩ := Include.resolve_eq_error hi
      exact .unasked ⟨d, hline, hk, hr⟩ hf
    · rcases enter_eq_error henter with ⟨a, -, rfl⟩ | ⟨f, hentry, rfl⟩ | ⟨t, a, ha, hf, -, hskip⟩
      · contradiction
      · obtain ⟨hfound, hactive, hread⟩ := entry_eq_unusable hentry
        obtain ⟨he, hfile⟩ := resolve_eq_requested hi
        rw [hfound] at he hfile
        subst he
        rcases readText_eq_error hc hread with ⟨f', hf', rfl⟩ | ⟨bytes, b, hbytes, hb, rfl⟩
        · obtain rfl := FileTree.read_eq_error hfile hf'
          contradiction
        · cases b with
          | bytes b => contradiction
          | other message => exact .undecoded ⟨d, hline, hk, hr⟩ hbytes hactive hb
      · contradiction
  · cases f <;> contradiction

theorem act_of_unasked {f : FileTree.Fault} (hl : l.Requests requested)
    (h : p.tree.isFile (p.requestedPath l requested) = .error f) :
    p.act g l = .error ⟨.unreadable (.path f (p.requestedPath l requested)), l.file.active p.tree.here, g⟩ := by
  obtain ⟨d, hline, hk, hr⟩ := hl
  have hi : Include.resolve p.options.prefixes p.tree requested l.place.file =
      .error (f, p.requestedPath l requested) := by
    rw [ScriptLine.place, resolve_requested, h]
  rw [act, passLine]
  simp only [hline]
  rw [applyDirective_eq]
  simp only [hk, hr, hi]
  rfl

theorem ScriptLine.Requests.asks {found : Bool} (hl : l.Requests requested)
    (h : p.tree.isFile (p.requestedPath l requested) = .ok found) :
    p.Asks l.place.file l.raw (p.requestedInclude l requested found) := by
  obtain ⟨d, hline, hk, hr⟩ := hl
  refine ⟨d, requested, hline, hk, hr, ?_⟩
  rw [ScriptLine.place, resolve_requested, h]

theorem act_of_undecoded {f : ReadFault} (hl : l.Requests requested)
    (h : p.tree.isFile (p.requestedPath l requested) = .ok true)
    (hread : p.readText (p.requestedPath l requested) = .error f)
    (hactive : (p.requestedPath l requested).address p.tree.here ∉ l.file.active p.tree.here) :
    p.act g l = .error ⟨.ofRead requested l.place f, l.file.active p.tree.here,
      g.record (p.requestedInclude l requested true)⟩ := by
  have hentry : p.entry (l.file.active p.tree.here) (p.requestedInclude l requested true) = .unusable f :=
    entry_of_fault rfl hread hactive
  rw [act, (ScriptLine.Requests.asks hl h).passLine, enter, hentry]
  rfl

theorem Escapes.act_eq (h : p.Escapes c l g halt) (hc : p.codec = .ok c) :
    p.act g l = .error halt ∧ halt.failure.diagnostic? = none := by
  cases h with
  | unasked hl hf => exact ⟨act_of_unasked hl hf, rfl⟩
  | @undecoded requested bytes message hl hbytes hactive hdecode =>
    have hread : p.readText (p.requestedPath l requested) = .error (.bytes (.other message)) := by
      obtain ⟨plain, hplain⟩ := Codecs.soundName_of_find hc
      rw [readText, hplain, hbytes]
      dsimp only
      rw [decode, hc]
      dsimp only
      rw [hdecode]
    exact ⟨act_of_undecoded hl (FileTree.isFile_of_read hbytes) hread hactive, rfl⟩

theorem act_of_missing (hl : l.Requests requested) (h : p.tree.isFile (p.requestedPath l requested) = .ok false) :
    p.act g l = .ok (g.record (p.requestedInclude l requested false)) := by
  rw [act, (ScriptLine.Requests.asks hl h).passLine, enter, entry_of_not_found rfl]
  rfl

/-- In an encoding that is known, a run fails without a report before any line, if its script has no name that can be
looked up, or at a line that fails without one; then it has the progress of the lines before. Where all directories may
be searched, a file that is missing under a path that is not too long is recorded, and no failure. -/
theorem run_unreported_iff (p : Project) (source : Text) (tagged : Bool) (script : Text)
    (hh : p.tree.here.Canonical) {c : Codec} (hc : p.codec = .ok c) :
    (∀ halt, p.run source tagged script = .error halt ∧ halt.failure.diagnostic? = none ↔
      (∃ f, FileTree.askSource source = .error f ∧ halt = ⟨.source f source, [], {}⟩) ∨
        ∃ l g, p.Arrives source tagged script l g ∧ p.Escapes c l g halt) ∧
    (p.tree.Searchable → ∀ l g requested, l.Requests requested → (p.requestedPath l requested).Short →
      (∀ a bytes r, p.tree.find (p.requestedPath l requested) ≠ .ok (a, .file bytes r)) →
      p.act g l = .ok (g.record (p.requestedInclude l requested false))) := by
  refine ⟨fun halt => ⟨?_, ?_⟩, fun hsearch l g requested hl hshort hmissing => ?_⟩
  · rintro ⟨h, hd⟩
    rcases exists_arrives hh h with hsource | ⟨l, g, hg, hl⟩
    · exact Or.inl hsource
    · exact Or.inr ⟨l, g, hg, act_unreported hc hl hd⟩
  · rintro (⟨f, hs, rfl⟩ | ⟨l, g, hg, hescapes⟩)
    · refine ⟨?_, rfl⟩
      rw [run_eq_error_iff, runLines, hs]
    · obtain ⟨hl, hd⟩ := hescapes.act_eq hc
      exact ⟨hg.run_eq_error hh hl, hd⟩
  · apply act_of_missing hl
    obtain ⟨found, hfound⟩ := FileTree.isFile_of_short hsearch hshort
    cases found with
    | true =>
      obtain ⟨a, bytes, r, hfind⟩ := FileTree.isFile_eq_ok_true hfound
      exact absurd hfind (hmissing a bytes r)
    | false => exact hfound

theorem run_unreported_long_name :
    let file := fun (name text : String) => ([Utf8.encode name.toList], Node.file (Utf8.encode text.toList))
    let p : Project := { tree := ⟨[file "a" "#define A 1"], []⟩ }
    let source : Text := "main".toText
    let long := List.replicate 256 (.char 'x')
    let script := "#include 'a'\n#include 'b'\n#include '".toText ++ long ++ [.char '\'']
    let line : ScriptLine := ⟨⟨[], source, false⟩, 2, "#include 'b'".toText⟩
    let unmarked : Codec :=
      ⟨fun _ => .error (.other "UTF-16 stream does not start with BOM".toText), fun _ => .error []⟩
    let p' : Project := { p with codecs := fun _ => .ok unmarked }
    p.tree.here.Canonical ∧ p.codec = .ok Encoding.utf8.codec ∧ p.tree.Searchable ∧
      (∃ halt l g, p.run source false script = .error halt ∧ halt.failure.diagnostic? = none ∧
        halt.progress.macros.names = ["A".toText] ∧
        halt.progress.includes.map (fun i => (i.requested, i.found)) = [("a".toText, true), ("b".toText, false)] ∧
        p.Arrives source false script l g ∧ p.Escapes Encoding.utf8.codec l g halt) ∧
      p.act {} line = .ok ({ includes := [p.requestedInclude line ['b'] false] } : Progress) ∧
      p.requestedInclude line ['b'] false = ⟨['b'], source, "b".toText, ⟨.root, ["b".toText]⟩, false⟩ ∧
      p'.codec = .ok unmarked ∧ ∃ halt l g, p'.run source false script = .error halt ∧
        halt.failure = .unreadable (.bytes (.other "UTF-16 stream does not start with BOM".toText)) ∧
        halt.progress.includes.map (·.requested) = ["a".toText] ∧
        p'.Arrives source false script l g ∧ p'.Escapes unmarked l g halt := by
  intro file p source long script line unmarked p'
  have hh : p.tree.here.Canonical := by
    intro n hn
    contradiction
  have hname : Encoding.soundName p.options.encoding = .ok "utf-8".toText := by decide +kernel
  have hc : p.codec = .ok Encoding.utf8.codec := Codecs.find_four hname (by decide +kernel)
  have hc' : p'.codec = .ok unmarked := by
    rw [codec, Codecs.find, show Encoding.soundName p'.options.encoding = .ok "utf-8".toText from hname]
    rfl
  have hsearch : p.tree.Searchable := by
    intro q r hmem
    simp [p, file] at hmem
  obtain ⟨hfailure, hother⟩ := run_unreported_iff p source false script hh hc
  have hrun : (p.run source false script).mapError (fun halt => (halt.failure.diagnostic?.isNone,
      halt.progress.macros.names, halt.progress.includes.map (fun i => (i.requested, i.found)))) =
      .error (true, ["A".toText], [("a".toText, true), ("b".toText, false)]) := by
    decide +kernel
  obtain ⟨halt, h, hhalt⟩ := exists_of_mapError_eq_error hrun
  simp only [Prod.mk.injEq] at hhalt
  obtain ⟨hd, hnames, hincludes⟩ := hhalt
  have hrun' : (p'.run source false script).mapError (fun halt =>
      (halt.failure, halt.progress.includes.map (·.requested))) =
      .error (.unreadable (.bytes (.other "UTF-16 stream does not start with BOM".toText)), ["a".toText]) := by
    decide +kernel
  obtain ⟨halt', h', hhalt'⟩ := exists_of_mapError_eq_error hrun'
  obtain ⟨hfailure', hincludes'⟩ := Prod.mk.inj hhalt'
  refine ⟨hh, hc, hsearch, ?_, ?_, by decide +kernel, hc', ?_⟩
  · rcases (hfailure halt).1 ⟨h, Option.isNone_iff_eq_none.1 hd⟩ with ⟨f, -, rfl⟩ | ⟨l, g, hline⟩
    · exact absurd hnames.symm (List.cons_ne_nil _ _)
    · exact ⟨halt, l, g, h, Option.isNone_iff_eq_none.1 hd, hnames, hincludes, hline⟩
  · have hr : line.Requests ['b'] :=
      ⟨⟨"include".toText, "'b'".toText⟩, by decide +kernel, by decide +kernel, by decide +kernel⟩
    refine hother hsearch line {} ['b'] hr ⟨by decide +kernel, by decide +kernel⟩ ?_
    intro a bytes r hfind
    have hmissing : p.tree.find (p.requestedPath line ['b']) = .error .missing := by decide +kernel
    cases hmissing.symm.trans hfind
  · have hd' : halt'.failure.diagnostic? = none := by
      rw [hfailure']
      rfl
    rcases ((run_unreported_iff p' source false script hh hc').1 halt').1 ⟨h', hd'⟩ with ⟨f, -, rfl⟩ | ⟨l, g, hline⟩
    · exact absurd hincludes'.symm (List.cons_ne_nil _ _)
    · exact ⟨halt', l, g, h', hfailure', hincludes', hline⟩

theorem run_unreported_missing_file :
    let p : Project := { tree := ⟨[], []⟩ }
    let script := "#include '".toText ++ List.replicate 256 (.char 'x') ++ [.char '\'']
    p.options.limit = .count 1000 ∧ p.codec = .ok Encoding.utf8.codec ∧ p.tree.files = [] ∧
      ∃ halt, p.run ("main".toText) false script = .error halt ∧ halt.failure.diagnostic? = none ∧
        halt.progress.includes = [] := by
  intro p script
  have hname : Encoding.soundName p.options.encoding = .ok "utf-8".toText := by decide +kernel
  have hc : p.codec = .ok Encoding.utf8.codec := Codecs.find_four hname (by decide +kernel)
  have hrun : (p.run ("main".toText) false script).mapError (fun halt =>
      (halt.failure.diagnostic?.isNone, halt.progress.includes)) = .error (true, []) := by
    decide +kernel
  obtain ⟨halt, h, hhalt⟩ := exists_of_mapError_eq_error hrun
  obtain ⟨hd, hincludes⟩ := Prod.mk.inj hhalt
  exact ⟨rfl, hc, rfl, halt, h, Option.isNone_iff_eq_none.1 hd, hincludes⟩

end Project

end ScriptMacros
