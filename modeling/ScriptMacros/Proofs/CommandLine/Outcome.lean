import ScriptMacros.CommandLine.Outcome
import ScriptMacros.Proofs.FileTree
import ScriptMacros.Proofs.Run.Conserving

namespace ScriptMacros

namespace Session

variable {s s' : Session} {tree : FileTree} {path text : Text} {tagged : Bool}

theorem runFile_eq_ok (h : s.runFile tree path tagged = (.ok text, s')) :
    ∃ script, Project.readText ⟨s.options, tree, s.codecs⟩ (Path.ofText path) = .ok script ∧
      Project.run ⟨s.options, tree, s.codecs⟩ (Path.ofText path).toText tagged script = .ok (text, s'.progress) := by
  unfold runFile at h
  dsimp only at h
  split at h
  · next script hscript =>
    refine ⟨script, hscript, ?_⟩
    unfold run at h
    dsimp only at h
    cases hrun : Project.run ⟨s.options, tree, s.codecs⟩ (Path.ofText path).toText tagged script with
    | error halt =>
      rw [hrun] at h
      cases h
    | ok r =>
      rw [hrun] at h
      cases h
      rfl
  · cases h

end Session

namespace CommandLine

variable {click : Click} {codecs : Codecs} {tree : FileTree} {e : Environment} {arguments : List Text} {r : Request}
  {options : Options} {text : Text} {s : Session} {o : Outcome}

def Request.asksForListing (r : Request) : Bool := r.listMacros || r.listIncludes

structure Computes (click : Click) (codecs : Codecs) (tree : FileTree) (e : Environment) (arguments : List Text)
    (r : Request) (options : Options) (text : Text) (s : Session) : Prop where
  request : click.receive includeOption tree arguments = .ok r
  settings : Options.build tree e r.config r.prefixes r.limit = .ok options
  answer : Session.runFile { options, codecs } tree r.input r.tagged = (.ok text, s)

structure Complains (tree : FileTree) (o : Outcome) : Prop where
  exitCode : o.exitCode ≠ 0
  tree : o.tree = tree
  stdout : o.stdout = []

/-- The command fails over a line that cannot be written, after the lines of a listing that stand before it. -/
structure BreaksOff (click : Click) (tree : FileTree) (r : Request) (g : Progress) (o : Outcome) : Prop where
  exitCode : o.exitCode ≠ 0
  tree : o.tree = tree
  lists : r.asksForListing = true
  stdout : ∃ before l after message, listing r g = before ++ l :: after ∧ click.echo l = .error message ∧
    click.echoAll before = (o.stdout, none)

inductive Delivers (click : Click) (codecs : Codecs) (tree : FileTree) (r : Request) (options : Options) (text : Text)
    (g : Progress) (o : Outcome) : Prop
  | listed : r.asksForListing = true → o.tree = tree → click.echoAll (listing r g) = (o.stdout, none) →
      Delivers click codecs tree r options text g o
  | printed : r.asksForListing = false → r.output = none → o.tree = tree → click.echo text = .ok o.stdout →
      (.char '\x1b' ∉ text → o.stdout = text ++ [.char '\n']) → Delivers click codecs tree r options text g o
  | saved {path : Text} {a : Address} {bytes : List UInt8} {rights : Rights} : r.asksForListing = false →
      r.output = some path → o.stdout = [] → o.tree.find (Path.ofText path) = .ok (a, .file bytes rights) →
      Project.decode ⟨options, o.tree, codecs⟩ bytes = .ok text →
      (rights.read = true → Project.readText ⟨options, o.tree, codecs⟩ (Path.ofText path) = .ok text) →
      (∀ a, a.place? ≠ ((Path.ofText path).address tree.here).place? → o.tree.node? a = tree.node? a) →
      Delivers click codecs tree r options text g o

theorem exitCode_aboutInput (message : Text) : (Complaint.aboutInput message).exitCode ≠ 0 := Nat.succ_ne_zero 1

theorem exitCode_unforeseen (message : Text) : (Complaint.unforeseen message).exitCode ≠ 0 := Nat.succ_ne_zero 2

theorem exitCode_ofPath (f : FileTree.Fault) (path : Text) : (Complaint.ofPath f path).exitCode ≠ 0 := by
  cases f with
  | missing => exact exitCode_aboutInput _
  | denied => exact exitCode_aboutInput _
  | _ => exact exitCode_unforeseen _

theorem exitCode_ofOptions (f : Options.Fault) : (Complaint.ofOptions f).exitCode ≠ 0 := by
  rw [Complaint.ofOptions]
  split
  · exact exitCode_aboutInput _
  · exact exitCode_unforeseen _

theorem exitCode_ofFailure (f : Failure) : (Complaint.ofFailure f).exitCode ≠ 0 := by
  unfold Complaint.ofFailure
  split
  · exact exitCode_ofPath _ _
  · exact exitCode_unforeseen _
  · exact exitCode_unforeseen _
  · exact Nat.succ_ne_zero 0

theorem complains_ofComplaint (remarks : List Text) {c : Complaint} (h : c.exitCode ≠ 0) :
    Complains tree (.ofComplaint click tree remarks c) :=
  ⟨h, rfl, rfl⟩

theorem Click.echoAll_eq_some {ts : List Text} {written message : Text}
    (h : click.echoAll ts = (written, some message)) :
    ∃ before t after, ts = before ++ t :: after ∧ click.echo t = .error message ∧
      click.echoAll before = (written, none) := by
  induction ts generalizing written with
  | nil => cases h
  | cons t ts ih =>
    rw [echoAll] at h
    split at h
    · next message' ht =>
      cases h
      exact ⟨[], t, ts, rfl, ht, rfl⟩
    · next first ht =>
      cases hts : click.echoAll ts with
      | mk later fault =>
      rw [hts] at h
      cases h
      obtain ⟨before, u, after, rfl, hu, hbefore⟩ := ih hts
      refine ⟨t :: before, u, after, rfl, hu, ?_⟩
      rw [echoAll, ht]
      dsimp only
      rw [hbefore]

theorem ofListing_cases (codecs : Codecs) (options : Options) (text : Text) (remarks : List Text) {g : Progress}
    (hr : r.asksForListing = true) :
    BreaksOff click tree r g (.ofListing click tree remarks (listing r g)) ∨
      (Outcome.ofListing click tree remarks (listing r g)).exitCode = 0 ∧
        Delivers click codecs tree r options text g (.ofListing click tree remarks (listing r g)) := by
  rw [Outcome.ofListing]
  cases hall : click.echoAll (listing r g) with
  | mk written fault =>
    cases fault with
    | none => exact Or.inr ⟨rfl, .listed hr rfl hall⟩
    | some message =>
      obtain ⟨before, l, after, hsplit, hl, hbefore⟩ := Click.echoAll_eq_some hall
      exact Or.inl ⟨exitCode_unforeseen message, rfl, hr, before, l, after, message, hsplit, hl, hbefore⟩

theorem save_cases (tree : FileTree) (path : Text) {encoding : Text} {c : Codec} {bytes : List UInt8}
    (hname : codecs.find encoding = .ok c) (hbytes : c.encode text = .ok bytes) :
    (∃ c, save codecs tree encoding path text = .error (c, tree) ∧ c.exitCode ≠ 0) ∨
      ∃ a rights, tree.Writable (Path.ofText path) a rights ∧
        save codecs tree encoding path text = .ok (tree.setFile a bytes rights) := by
  obtain ⟨plain, hplain⟩ := Codecs.soundName_of_find hname
  rw [save, hplain]
  dsimp only
  cases hopen : tree.write (Path.ofText path) [] with
  | error f => exact Or.inl ⟨_, rfl, exitCode_ofPath _ _⟩
  | ok emptied =>
    -- The file is empty by now, so whatever could fail from here on would have changed the tree.
    obtain ⟨a, rights, hw, rfl⟩ := FileTree.write_eq_ok hopen
    refine Or.inr ⟨a, rights, hw, ?_⟩
    dsimp only
    rw [hname]
    dsimp only
    rw [hbytes]
    dsimp only
    rw [hw.write_setFile]

theorem saved_delivers {path : Text} {a : Address} {bytes : List UInt8} {rights : Rights}
    (hlists : r.asksForListing = false) (hoption : r.output = some path)
    (hw : tree.Writable (Path.ofText path) a rights) (hdecode : Project.decode ⟨options, tree, codecs⟩ bytes = .ok text)
    (hstdout : o.stdout = []) (htree : o.tree = tree.setFile a bytes rights) {g : Progress} :
    Delivers click codecs tree r options text g o := by
  refine .saved hlists hoption hstdout (htree ▸ hw.find_setFile bytes) hdecode ?_ ?_
  · intro hreadable
    rw [htree]
    exact Project.readText_eq_ok_iff.2 ⟨bytes, hw.read_setFile hreadable bytes, hdecode⟩
  · intro b hb
    rw [Path.address, ← FileTree.walk_eq_ok hw.walk] at hb
    rw [htree]
    exact FileTree.node?_setFile_of_ne hb tree bytes rights

theorem perform_cases (hclick : click.Documented) {code : Encoding}
    (hsettings : Options.build tree e r.config r.prefixes r.limit = .ok options)
    (hcode : codecs.find options.encoding = .ok code.codec)
    (hanswer : Session.runFile { options, codecs } tree r.input r.tagged = (.ok text, s)) :
    Complains tree (perform click codecs tree e r) ∨
      BreaksOff click tree r s.progress (perform click codecs tree e r) ∨
      (perform click codecs tree e r).exitCode = 0 ∧
        Delivers click codecs tree r options text s.progress (perform click codecs tree e r) := by
  obtain ⟨script, hscript, hrun⟩ := Session.runFile_eq_ok hanswer
  rw [perform, hsettings]
  dsimp only
  rw [hanswer]
  dsimp only
  split
  · next hlists => exact Or.inr (ofListing_cases codecs options text _ hlists)
  next hlists =>
  have hlists : r.asksForListing = false := Bool.eq_false_iff.2 hlists
  split
  · next hoption =>
    cases hecho : click.echo text with
    | error message => exact Or.inl (complains_ofComplaint _ (exitCode_unforeseen message))
    | ok written =>
      exact Or.inr (Or.inr ⟨rfl, .printed hlists hoption rfl hecho fun hplain =>
        hclick.plain text written hplain hecho⟩)
  · next path hoption =>
    have hcodec : Project.codec ⟨options, tree, codecs⟩ = .ok code.codec := hcode
    obtain ⟨bytes, hbytes, hdecode⟩ := Project.exists_encode_of_run hcodec hscript hrun
    have hencode : code.codec.encode text = .ok bytes := mapError_eq_ok_iff.2 hbytes
    rcases save_cases tree path hcode hencode with ⟨c, hsave, hc⟩ | ⟨a, rights, hw, hsave⟩
    · rw [hsave]
      exact Or.inl (complains_ofComplaint _ hc)
    · rw [hsave]
      exact Or.inr (Or.inr ⟨rfl, saved_delivers hlists hoption hw hdecode rfl rfl⟩)

theorem exists_code_of_runFile (h : Session.runFile { options, codecs } tree r.input r.tagged = (.ok text, s)) :
    ∃ c, codecs.find options.encoding = .ok c := by
  obtain ⟨script, hscript, -⟩ := Session.runFile_eq_ok h
  obtain ⟨bytes, -, hdecode⟩ := Project.readText_eq_ok_iff.1 hscript
  obtain ⟨c, -, hc, -⟩ := Project.decode_eq_ok hdecode
  exact ⟨c, hc⟩

/-- The settings that a command comes to name one of the four encodings, or none that is known. -/
def NamesOwnEncoding (click : Click) (codecs : Codecs) (tree : FileTree) (e : Environment) (arguments : List Text) :
    Prop :=
  ∀ r options c, click.receive includeOption tree arguments = .ok r →
    Options.build tree e r.config r.prefixes r.limit = .ok options → codecs.find options.encoding = .ok c →
    ∃ code : Encoding, c = code.codec

theorem Computes.exists_code (h : Computes click codecs tree e arguments r options text s)
    (hown : NamesOwnEncoding click codecs tree e arguments) :
    ∃ code : Encoding, codecs.find options.encoding = .ok code.codec := by
  obtain ⟨c, hc⟩ := exists_code_of_runFile h.answer
  obtain ⟨code, rfl⟩ := hown r options c h.request h.settings hc
  exact ⟨code, hc⟩

theorem run_cases (hclick : click.Documented) (hown : NamesOwnEncoding click codecs tree e arguments)
    (hasked : ∀ ending, click.receive includeOption tree arguments = .error ending → ending.exitCode ≠ 0) :
    Complains tree (run click codecs tree e arguments) ∨
      ∃ r options text s, Computes click codecs tree e arguments r options text s ∧
        (BreaksOff click tree r s.progress (run click codecs tree e arguments) ∨
          (run click codecs tree e arguments).exitCode = 0 ∧
            Delivers click codecs tree r options text s.progress (run click codecs tree e arguments)) := by
  rw [run]
  cases hrequest : click.receive includeOption tree arguments with
  | error ending =>
    have hfails := hasked ending hrequest
    exact Or.inl ⟨hfails, rfl, hclick.refuses _ _ _ ending hrequest hfails⟩
  | ok r =>
    dsimp only
    cases hsettings : Options.build tree e r.config r.prefixes r.limit with
    | error f =>
      rw [perform, hsettings]
      exact Or.inl (complains_ofComplaint _ (exitCode_ofOptions f))
    | ok options =>
      obtain ⟨answer, s, hanswer⟩ :
          ∃ answer s, Session.runFile { options, codecs } tree r.input r.tagged = (answer, s) := ⟨_, _, rfl⟩
      cases answer with
      | error f =>
        rw [perform, hsettings]
        dsimp only
        rw [hanswer]
        exact Or.inl (complains_ofComplaint _ (exitCode_ofFailure f))
      | ok text =>
        have hcomputes : Computes click codecs tree e arguments r options text s := ⟨hrequest, hsettings, hanswer⟩
        obtain ⟨code, hcode⟩ := hcomputes.exists_code hown
        rcases perform_cases hclick hsettings hcode hanswer with h | h
        · exact Or.inl h
        · exact Or.inr ⟨r, options, text, s, hcomputes, h⟩

/-- A command that fails changes no file, and gives out nothing but the lines of a listing before the first that cannot
be written. One that succeeds gives out what the run made of the file: to a file that is read back as that text, or to
the terminal, as it is where the text holds no control sequence. Each character of the text was read, or is a double
quote or a space, so it can be written in the encoding of the settings. Questions for help are left out, and of the
library no more is used than is documented. -/
theorem run_all_or_nothing (click : Click) (hclick : click.Documented) (codecs : Codecs) (tree : FileTree)
    (e : Environment) (arguments : List Text) (hown : NamesOwnEncoding click codecs tree e arguments)
    (hasked : ∀ ending, click.receive includeOption tree arguments = .error ending → ending.exitCode ≠ 0) :
    let o := run click codecs tree e arguments
    (o.exitCode ≠ 0 → o.tree = tree ∧ (o.stdout = [] ∨ ∃ r options text s,
      Computes click codecs tree e arguments r options text s ∧ BreaksOff click tree r s.progress o)) ∧
    (o.exitCode = 0 → ∃ r options text s, Computes click codecs tree e arguments r options text s ∧
      Delivers click codecs tree r options text s.progress o) ∧
    ∀ r options text s, Computes click codecs tree e arguments r options text s →
      ∃ script code bytes, Project.readText ⟨options, tree, codecs⟩ (Path.ofText r.input) = .ok script ∧
        (∀ c ∈ text, Given ⟨options, tree, codecs⟩ script s.progress c) ∧
        codecs.find options.encoding = .ok (Encoding.codec code) ∧ code.encode text = .ok bytes := by
  refine ⟨fun hfails => ?_, fun hsucceeds => ?_, fun r options text s h => ?_⟩
  · rcases run_cases hclick hown hasked with h | ⟨r, options, text, s, hcomputes, h | ⟨hzero, -⟩⟩
    · exact ⟨h.tree, Or.inl h.stdout⟩
    · exact ⟨h.tree, Or.inr ⟨r, options, text, s, hcomputes, h⟩⟩
    · exact absurd hzero hfails
  · rcases run_cases hclick hown hasked with h | ⟨r, options, text, s, hcomputes, h | ⟨-, h⟩⟩
    · exact absurd hsucceeds h.exitCode
    · exact absurd hsucceeds h.exitCode
    · exact ⟨r, options, text, s, hcomputes, h⟩
  · obtain ⟨script, hscript, hrun⟩ := Session.runFile_eq_ok h.answer
    obtain ⟨code, hcode⟩ := h.exists_code hown
    have hcodec : Project.codec ⟨options, tree, codecs⟩ = .ok code.codec := hcode
    obtain ⟨bytes, hbytes, -⟩ := Project.exists_encode_of_run hcodec hscript hrun
    exact ⟨script, code, bytes, hscript, Project.given_of_run hrun, hcode, hbytes⟩

def visible : (inside : Bool) → Text → Text
  | _, [] => []
  | true, c :: t => visible (!c.isAlpha) t
  | false, c :: t => if c = '\x1b' then visible true t else c :: visible false t

def fileClick (r : Request) : Click where
  receive _ _ _ := .ok r
  echo t :=
    match Encoding.surrogateFault? t with
    | some f => .error f.message
    | none => .ok (visible false t ++ [.char '\n'])
  echoError t := t ++ [.char '\n']

theorem visible_eq_self {t : Text} (h : .char '\x1b' ∉ t) : visible false t = t := by
  induction t with
  | nil => rfl
  | cons c t ih =>
    rw [List.mem_cons, not_or] at h
    rw [visible, if_neg (Ne.symm h.1), ih h.2]

theorem documented_fileClick (r : Request) : (fileClick r).Documented where
  refuses := by
    intro option tree arguments ending h
    contradiction
  plain := by
    intro t written hplain h
    dsimp only [fileClick] at h
    split at h
    · contradiction
    · cases h
      rw [visible_eq_self hplain]

theorem run_all_or_nothing_saved :
    let file := fun (name text : String) => ([Utf8.encode name.toList], Node.file (Utf8.encode text.toList))
    let tree : FileTree := ⟨[file "i" "\ufeff#include 'b'\nA \x1b[1mé", file "b" "#define A \"é\"\t",
      file "c.json" "\x7b\"encoding\": \"utf-8-sig\"\x7d"], []⟩
    let options : Options := { encoding := "utf-8-sig".toText }
    let saving := ["-c".toText, "c.json".toText, "i".toText, "-o".toText, "o".toText]
    let click := fileClick { input := "i".toText, output := some "o".toText, config := some "c.json".toText }
    let o := run click .four tree {} saving
    let text := "\n\"é\" \x1b[1mé".toText
    click.Documented ∧ NamesOwnEncoding click .four tree {} saving ∧
      (∀ ending, click.receive includeOption tree saving = .error ending → ending.exitCode ≠ 0) ∧
      o.exitCode = 0 ∧ o.stdout = [] ∧ o.tree ≠ tree ∧
      Project.readText ⟨options, o.tree, .four⟩ (.ofText "o".toText) = .ok text ∧
      ∃ script g, Project.readText ⟨options, tree, .four⟩ (.ofText "i".toText) = .ok script ∧
        ∀ c ∈ text, Given ⟨options, tree, .four⟩ script g c := by
  intro file tree options saving click o text
  let r₀ : Request := { input := "i".toText, output := some "o".toText, config := some "c.json".toText }
  have hclick : click.Documented := documented_fileClick r₀
  have hown : NamesOwnEncoding click .four tree {} saving := fun _ _ _ _ _ h => Codecs.exists_of_find_four h
  have hasked : ∀ ending, click.receive includeOption tree saving = .error ending → ending.exitCode ≠ 0 := by
    intro ending h
    contradiction
  have hsettings : Options.build tree {} r₀.config r₀.prefixes r₀.limit = .ok options := by decide +kernel
  have hanswer : (Session.runFile { options } tree r₀.input r₀.tagged).1 = .ok text := by decide +kernel
  have hzero : o.exitCode = 0 := by decide +kernel
  obtain ⟨-, hsucceeds, hgiven⟩ := run_all_or_nothing click hclick .four tree {} saving hown hasked
  obtain ⟨r, options', text', s, hcomputes, hdelivers⟩ := hsucceeds hzero
  obtain ⟨script, -, -, hscript, hall, -⟩ := hgiven r options' text' s hcomputes
  obtain rfl : r = r₀ := Except.ok.inj hcomputes.request.symm
  obtain rfl : options' = options := Except.ok.inj (hcomputes.settings.symm.trans hsettings)
  rw [hcomputes.answer] at hanswer
  obtain rfl : text' = text := Except.ok.inj hanswer
  cases hdelivers with
  | listed hlists => cases hlists
  | printed _ hnone => cases hnone
  | saved _ hpath hstdout _ _ _ =>
    cases hpath
    have hread : Project.readText ⟨options, o.tree, .four⟩ (.ofText "o".toText) = .ok text := by decide +kernel
    exact ⟨hclick, hown, hasked, hzero, hstdout, by decide +kernel, hread, script, s.progress, hscript, hall⟩

theorem run_prints_otherwise :
    let file := fun (name text : String) => ([Utf8.encode name.toList], Node.file (Utf8.encode text.toList))
    let tree : FileTree := ⟨[file "i" "\x1b[31mred\x1b[0m"], []⟩
    let r : Request := { input := [.char 'i'] }
    let o := run (fileClick r) .four tree {} ["i".toText]
    let listed : FileTree := ⟨[file "i" "#define A 1\n#include 'V'", file "é" "#define B 2",
      file "c.json" "\x7b\"includePaths\": \x7b\"V\": \"\\udcc3\\udca9\"\x7d\x7d"], []⟩
    let r' : Request := { input := [.char 'i'], config := some "c.json".toText, listMacros := true }
    let o' := run (fileClick r') .four listed {} ["-c".toText, "c.json".toText, "i".toText, "--list-macros".toText]
    (fileClick r).Documented ∧ (∃ text s, Computes (fileClick r) .four tree {} ["i".toText] r {} text s ∧
      r.asksForListing = false ∧ r.output = none ∧ o.exitCode = 0 ∧ text = "\x1b[31mred\x1b[0m".toText ∧
      o.stdout = "red\n".toText ∧ o.stdout ≠ text ++ [.char '\n']) ∧
    (fileClick r').Documented ∧ o'.exitCode = 3 ∧ o'.stdout = "A = '1' [1 definition(s), first at i:1]\n".toText := by
  intro file tree r o listed r' o'
  have htext : (Session.runFile {} tree r.input r.tagged).1 = .ok "\x1b[31mred\x1b[0m".toText := by decide +kernel
  have hanswer := (Prod.eta (Session.runFile {} tree r.input r.tagged)).symm
  rw [htext] at hanswer
  have hcomputes : Computes (fileClick r) .four tree {} ["i".toText] r {} "\x1b[31mred\x1b[0m".toText _ :=
    ⟨rfl, by decide +kernel, hanswer⟩
  refine ⟨documented_fileClick r, ⟨_, _, hcomputes, rfl, rfl, ?_, rfl, ?_, ?_⟩, documented_fileClick r', ?_, ?_⟩
  all_goals decide +kernel

end CommandLine

end ScriptMacros
