import ScriptMacros.Proofs.Encoding
import ScriptMacros.Proofs.Outline
import ScriptMacros.Proofs.Run.OpenFiles
import ScriptMacros.Proofs.Run.Output

namespace ScriptMacros

def Include.moved (source source' : Text) (i : Include) : Include :=
  if i.source = source then { i with source := source' } else i

theorem Include.moved_self (source : Text) (i : Include) : i.moved source source = i := by
  rw [moved]
  split
  · next h => rw [← h]
  · rfl

theorem Include.map_moved_self (source : Text) (l : List Include) : l.map (Include.moved source source) = l :=
  map_eq_self fun i _ => i.moved_self source

def Include.directory (here : Address) (source : Text) : Path := ((Path.ofText source).absolute here).parent

theorem Include.resolve_of_directory {prefixes : PrefixMap} {tree : FileTree} {requested : Text}
    {source source' : Text} {i : Include} (hd : directory tree.here source' = directory tree.here source)
    (h : resolve prefixes tree requested source = .ok i) :
    i.source = source ∧ resolve prefixes tree requested source' = .ok { i with source := source' } := by
  have hrecords := resolve_eq_ok_iff.1 h
  have htarget : target tree.here i.source i.file = target tree.here source' i.file := by
    rw [hrecords.source]
    exact congrArg (fun d : Path => d.join _) hd.symm
  exact ⟨hrecords.source, resolve_eq_ok_iff.2
    { hrecords with source := rfl, path := hrecords.path.trans htarget }⟩

theorem Include.absolute_target (here here' : Address) (source mapped : Text) :
    (target here source mapped).absolute here' = target here source mapped := by
  have habsolute : ∀ p : Path, (p.absolute here).anchor ≠ .relative := by
    intro p
    rw [Path.absolute]
    split
    · simp
    · assumption
  have hjoin : ∀ p q : Path, p.anchor ≠ .relative → (p.join q).anchor ≠ .relative := by
    intro p q hp
    rw [Path.join]
    split
    · exact hp
    · assumption
  have hanchor : (target here source mapped).anchor ≠ .relative := hjoin _ _ (habsolute _)
  rw [Path.absolute]
  split
  · next h => exact absurd h hanchor
  · rfl

theorem Include.sound_of_resolve {prefixes : PrefixMap} {tree : FileTree} {requested : Text} {source : Text}
    {i : Include} (hh : tree.here.Canonical) (h : resolve prefixes tree requested source = .ok i) : i.path.Sound := by
  rw [(resolve_eq_ok_iff.1 h).path]
  exact sound_target hh

theorem Include.directory_toText {prefixes : PrefixMap} {tree : FileTree} {requested : Text} {source : Text}
    {i : Include} (hh : tree.here.Canonical) (h : resolve prefixes tree requested source = .ok i) :
    directory tree.here i.path.toText = i.path.parent := by
  have hsound := sound_of_resolve hh h
  rw [directory, Path.ofText_toText hsound, (resolve_eq_ok_iff.1 h).path, absolute_target]

namespace Project

variable {p : Project} {active active' : List Address} {entering : Entering p active} {tagged tagged' : Bool}
  {g g' g₁ g₁' g₂ g₂' : Progress} {i : Include} {a : Address} {text : Text} {source source' : Text}
  {lines out : List Text} {n n' : Nat}

theorem entry_of_subset (hsub : active' ⊆ active) {ha : a ∉ active} {hf : a ∈ p.tree.addresses}
    (h : p.entry active i = .text text a ha hf) : p.entry active' i = .text text a (fun hm => ha (hsub hm)) hf := by
  obtain ⟨rfl, hfound, hread⟩ := entry_read h
  exact (entry_of_read hfound hread fun hm => ha (hsub hm)).2

/-- What two passes over the same lines have in common, the second under another name of the file. Records of files
that the lines include are the same in both. -/
structure Parallel (p : Project) (active : List Address) (source source' : Text) (g g₁ g' g₁' : Progress) :
    Prop where
  outline : g₁'.macros.outline = g₁.macros.outline
  includes : ∃ records, g₁.includes = g.includes ++ records ∧
    g₁'.includes = g'.includes ++ records.map (Include.moved source source') ∧
    ∀ r ∈ records, r.source = source ∨ (Path.ofText r.source).address p.tree.here ∉ active

theorem Parallel.refl (h : g'.macros.outline = g.macros.outline) : p.Parallel active source source' g g g' g' :=
  ⟨h, [], by simp, by simp, by simp⟩

theorem Parallel.trans (h : p.Parallel active source source' g g₁ g' g₁')
    (h' : p.Parallel active source source' g₁ g₂ g₁' g₂') : p.Parallel active source source' g g₂ g' g₂' := by
  obtain ⟨records, hr, hr', hsource⟩ := h.includes
  obtain ⟨more, hm, hm', hsource'⟩ := h'.includes
  refine ⟨h'.outline, records ++ more, ?_, ?_, ?_⟩
  · rw [hm, hr, List.append_assoc]
  · rw [hm', hr', List.map_append, List.append_assoc]
  · exact List.forall_mem_append.2 ⟨hsource, hsource'⟩

theorem address_toText_mem (hsound : i.path.Sound) (ha : a = i.path.address p.tree.here) :
    (Path.ofText i.path.toText).address p.tree.here ∈ active ++ [a] := by
  rw [Path.ofText_toText hsound, ← ha]
  exact List.mem_append_right _ List.mem_cons_self

structure Relocation (p : Project) (active active' : List Address) (source source' : Text) : Prop where
  canonical : p.tree.here.Canonical
  subset : active' ⊆ active
  mem : (Path.ofText source).address p.tree.here ∈ active
  directory : Include.directory p.tree.here source' = Include.directory p.tree.here source

theorem Relocation.nested (h : p.Relocation active active' source source') (hsound : i.path.Sound)
    (ha : a = i.path.address p.tree.here) :
    p.Relocation (active ++ [a]) (active' ++ [a]) i.path.toText i.path.toText := by
  refine ⟨h.canonical, ?_, address_toText_mem hsound ha, rfl⟩
  have hleft : active' ⊆ active ++ [a] := List.Subset.trans h.subset (List.subset_append_left _ _)
  exact List.append_subset.2 ⟨hleft, List.subset_append_right _ _⟩

def NestedParallel (p : Project) (active active' : List Address) : Prop :=
  ∀ (i : Include) (t : Text) (a : Address) (ha : a ∉ active) (ha' : a ∉ active') (hf : a ∈ p.tree.addresses)
    (g g' g₁ : Progress) (out : List Text), i.path.Sound → a = i.path.address p.tree.here →
    g'.macros.outline = g.macros.outline → p.nested active i t a ha hf g = .ok (out, g₁) →
    ∃ g₁', p.nested active' i t a ha' hf g' = .ok (out, g₁') ∧
      p.Parallel (active ++ [a]) i.path.toText i.path.toText g g₁ g' g₁'

theorem Parallel.nested (h : p.Parallel (active ++ [a]) i.path.toText i.path.toText (g.record i) g₁
      (g'.record { i with source := source' }) g₁')
    (hsound : i.path.Sound) (ha : a ∉ active) (haddress : a = i.path.address p.tree.here) (hi : i.source = source)
    (hsource : (Path.ofText source).address p.tree.here ∈ active) : p.Parallel active source source' g g₁ g' g₁' := by
  obtain ⟨records, hr, hr', hrecords⟩ := h.includes
  -- A file that is open cannot be included, so no record made inside has the name of the outer file.
  have houtside : ∀ r ∈ records, (Path.ofText r.source).address p.tree.here ∉ active := by
    intro r hr hm
    rcases hrecords r hr with he | hn
    · rw [he, Path.ofText_toText hsound, ← haddress] at hm
      exact ha hm
    · exact hn (List.mem_append_left _ hm)
  have hkeep : records.map (Include.moved source source') = records := by
    apply map_eq_self
    intro r hr
    have hne : r.source ≠ source := fun he => houtside r hr (by rwa [he])
    exact if_neg hne
  refine ⟨h.outline, i :: records, ?_, ?_, ?_⟩
  · rw [hr, Progress.record, List.append_assoc, List.singleton_append]
  · rw [hr', Include.map_moved_self, List.map_cons, hkeep, Include.moved, if_pos hi, Progress.record,
      List.append_assoc, List.singleton_append]
  · exact List.forall_mem_cons.2 ⟨Or.inl hi, fun r hr => Or.inr (houtside r hr)⟩

section

variable {place place' : Location} {raw t : Text} {d : Directive}

theorem enter_parallel (place' : Location) (hrel : p.Relocation active active' source source')
    (hn : p.NestedParallel active active') (hsound : i.path.Sound) (hi : i.source = source)
    (hg : g'.macros.outline = g.macros.outline)
    (h : p.enter active (p.nested active) place i (g.record i) = .ok g₁) :
    ∃ g₁', p.enter active' (p.nested active') place' { i with source := source' }
        (g'.record { i with source := source' }) = .ok g₁' ∧ p.Parallel active source source' g g₁ g' g₁' := by
  rcases enter_eq_ok h with ⟨he, rfl⟩ | ⟨t, a, ha, hf, out, he, hnested⟩
  · have he' : p.entry active' { i with source := source' } = .absent :=
      entry_eq_absent_iff.2 (entry_eq_absent_iff.1 he)
    refine ⟨g'.record { i with source := source' }, ?_, hg, [i], rfl, ?_, ?_⟩
    · rw [enter, he']
    · rw [List.map_singleton, Include.moved, if_pos hi]
      rfl
    · simp [hi]
  · have he' : p.entry active' { i with source := source' } = .text t a (fun hm => ha (hrel.subset hm)) hf :=
      entry_of_subset hrel.subset he
    obtain ⟨haddress, -⟩ := entry_eq_text he
    obtain ⟨g₁', hnested', hp⟩ := hn i t a ha (fun hm => ha (hrel.subset hm)) hf (g.record i)
      (g'.record { i with source := source' }) g₁ out hsound haddress hg hnested
    refine ⟨g₁', ?_, hp.nested hsound ha haddress hi hrel.mem⟩
    rw [enter, he']
    exact congrArg (Except.map Prod.snd) hnested'

theorem applyDirective_parallel (tagged' : Bool) (hrel : p.Relocation active active' source source')
    (hn : p.NestedParallel active active') (hg : g'.macros.outline = g.macros.outline)
    (hplace : place.file = source) (hplace' : place'.file = source')
    (h : p.applyDirective active (p.nested active) tagged place d g = .ok g₁) :
    ∃ g₁', p.applyDirective active' (p.nested active') tagged' place' d g' = .ok g₁' ∧
      p.Parallel active source source' g g₁ g' g₁' := by
  rcases applyDirective_eq_ok h with ⟨hk, e, he, rfl⟩ | ⟨hk, requested, i, hr, hi, henter⟩ | ⟨hk, rfl⟩
  · refine ⟨g'.define place' tagged' d.value e, ?_, ?_, [], ?_, ?_, by simp⟩
    · rw [applyDirective_eq]
      simp only [hk, he]
    · rw [Progress.define, Progress.define, MacroTable.outline_define, MacroTable.outline_define, hg]
    · simp [Progress.define]
    · simp [Progress.define]
  · rw [hplace] at hi
    obtain ⟨hisource, hi'⟩ := Include.resolve_of_directory hrel.directory hi
    have hsound := Include.sound_of_resolve hrel.canonical hi
    obtain ⟨g₁', henter', hp⟩ := enter_parallel place' hrel hn hsound hisource hg henter
    refine ⟨g₁', ?_, hp⟩
    rw [applyDirective_eq]
    simp only [hk, hr, hplace', hi']
    exact henter'
  · refine ⟨g', ?_, .refl hg⟩
    rw [applyDirective_eq]
    rcases hk with hk | hk <;> simp only [hk]

theorem passLine_parallel (tagged' : Bool) (hrel : p.Relocation active active' source source')
    (hn : p.NestedParallel active active') (hg : g'.macros.outline = g.macros.outline)
    (hplace : place.file = source) (hplace' : place'.file = source')
    (h : p.passLine active (p.nested active) tagged place raw g = .ok (t, g₁)) :
    ∃ g₁', p.passLine active' (p.nested active') tagged' place' raw g' = .ok (t, g₁') ∧
      p.Parallel active source source' g g₁ g' g₁' := by
  rcases passLine_eq_ok h with ⟨d, hdir, rfl, ha⟩ | ⟨hcode, rfl, ht⟩
  · obtain ⟨g₁', ha', hp⟩ := applyDirective_parallel tagged' hrel hn hg hplace hplace' ha
    refine ⟨g₁', ?_, hp⟩
    unfold passLine
    dsimp only
    rw [hdir]
    dsimp only
    rw [ha']
    rfl
  · refine ⟨g', ?_, .refl hg⟩
    unfold passLine
    dsimp only
    rw [hcode]
    dsimp only
    rw [MacroTable.expand_congr hg, ht]

end

theorem passLines_parallel_of_nested (tagged' : Bool) (n' : Nat) (hrel : p.Relocation active active' source source')
    (hn : p.NestedParallel active active') (hg : g'.macros.outline = g.macros.outline)
    (h : p.passLines active (p.nested active) source tagged n lines g = .ok (out, g₁)) :
    ∃ g₁', p.passLines active' (p.nested active') source' tagged' n' lines g' = .ok (out, g₁') ∧
      p.Parallel active source source' g g₁ g' g₁' := by
  induction lines generalizing n n' g g' out with
  | nil =>
    cases h
    exact ⟨g', rfl, .refl hg⟩
  | cons raw rest ih =>
    obtain ⟨t, g₂, out', ht, hr, rfl⟩ := passLines_cons_eq_ok h
    have hplace' : (Location.mk source' n' 1).file = source' := rfl
    obtain ⟨g₂', ht', hp⟩ := passLine_parallel tagged' hrel hn hg rfl hplace' ht
    obtain ⟨g₁', hr', hp'⟩ := ih (n' + 1) hp.outline hr
    refine ⟨g₁', ?_, hp.trans hp'⟩
    rw [passLines, ht']
    dsimp only
    rw [hr']

theorem passLines_parallel (tagged' : Bool) (n' : Nat) (hrel : p.Relocation active active' source source')
    (hg : g'.macros.outline = g.macros.outline)
    (h : p.passLines active (p.nested active) source tagged n lines g = .ok (out, g₁)) :
    ∃ g₁', p.passLines active' (p.nested active') source' tagged' n' lines g' = .ok (out, g₁') ∧
      p.Parallel active source source' g g₁ g' g₁' := by
  -- In a nested file the same address is added on both sides, and one address less is left.
  induction hk : p.tree.remaining active using Nat.strongRecOn
    generalizing active active' source source' tagged tagged' n n' lines g g' out g₁ with
  | _ k ih =>
    refine passLines_parallel_of_nested tagged' n' hrel ?_ hg h
    intro i t a ha ha' hf g g' g₁ out hsound haddress hg h
    have hlt : p.tree.remaining (active ++ [a]) < k := hk ▸ FileTree.remaining_lt ha hf
    rw [nested, pass_eq] at h ⊢
    exact ih _ hlt true 1 (hrel.nested hsound haddress) hg h rfl

theorem Asks.passLine_eq_ok [entering.Settles] {place : Location} {raw t : Text} (h : p.Asks source raw i)
    (hfound : i.found = true)
    (hplace : place.file = source) (hpass : p.passLine active entering tagged place raw g = .ok (t, g₁)) :
    t = [] ∧ ∃ text a ha hf out, p.entry active i = .text text a ha hf ∧
      entering i text a ha hf (g.record i) = .ok (out, g₁) := by
  rcases Project.passLine_eq_ok hpass with ⟨d, hd, rfl, happly⟩ | ⟨hcode, -, -⟩
  · rw [h.applyDirective hd hplace] at happly
    refine ⟨rfl, ?_⟩
    rcases enter_eq_ok happly with ⟨habsent, -⟩ | ⟨text, a, ha, hf, out, hentry, hnested⟩
    · rw [entry_eq_absent_iff.1 habsent] at hfound
      contradiction
    · exact ⟨text, a, ha, hf, out, hentry, hnested⟩
  · obtain ⟨d, requested, hd, -⟩ := h
    rw [hcode] at hd
    contradiction

theorem passLines_of_nested (tagged : Bool) (n : Nat) (hh : p.tree.here.Canonical) {raw : Text}
    (hi : p.Asks source raw i) (hparent : i.path.parent = Include.directory p.tree.here source) {ha : a ∉ active}
    {hf : a ∈ p.tree.addresses} (hentry : p.entry active i = .text text a ha hf)
    (hg : g'.macros.outline = g.macros.outline) (h : p.nested active i text a ha hf g = .ok (out, g₁)) :
    ∃ g₁', p.passLines active (p.nested active) source tagged n (Text.lines text) g' = .ok (out, g₁') ∧
      p.Parallel (active ++ [a]) i.path.toText source g g₁ g' g₁' := by
  obtain ⟨requested, hresolve⟩ := hi.resolves
  obtain ⟨haddress, -, hread⟩ := entry_read hentry
  obtain ⟨bytes, -, hd⟩ := readText_eq_ok_iff.1 hread
  rw [nested, pass_eq, sourceLines_of_notMem (return_notMem_of_decode hd)] at h
  refine passLines_parallel tagged n ⟨hh, List.subset_append_left _ _, ?_, ?_⟩ hg h
  · exact address_toText_mem (Include.sound_of_resolve hh hresolve) haddress
  · rw [Include.directory_toText hh hresolve, hparent]

/-- The lines of an included file can stand in the place of the line that includes it, when it is in the directory of
the file around it. The lines around come to the same, the macros are the same but for where they were defined, and of
the inclusions only the one of the file itself is missing. -/
theorem include_eq_paste (p : Project) (source : Text) (tagged : Bool) (hh : p.tree.here.Canonical)
    {script raw t : Text} {before rest : List Text} {i : Include} {g : Progress}
    (hlines : sourceLines script = before ++ raw :: rest) (hi : p.Asks source raw i) (hfound : i.found = true)
    (hparent : i.path.parent = Include.directory p.tree.here source)
    (h : p.run source tagged script = .ok (t, g)) :
    ∃ text out₁ out₂ g₁ g₂ own after, p.readText i.path = .ok text ∧
      p.runLines source tagged before = .ok (out₁, g₁) ∧
      p.runLines source tagged (before ++ [raw]) = .ok (out₁ ++ [[]], g₂) ∧
      Text.lines t = out₁ ++ [] :: out₂ ∧ out₁.length = before.length ∧ out₂.length = rest.length ∧
      g₂.includes = g₁.includes ++ i :: own ∧ g.includes = g₂.includes ++ after ∧
      ∀ script', sourceLines script' = before ++ Text.lines text ++ rest →
        ∃ t' g' out, p.run source tagged script' = .ok (t', g') ∧
          Text.lines t' = out₁ ++ out ++ out₂ ∧ out.length = (Text.lines text).length ∧
          g'.macros.outline = g.macros.outline ∧
          g'.includes = g₁.includes ++ own.map (Include.moved i.path.toText source) ++ after := by
  have hrun := run_eq_ok_iff.1 h
  have hk := askSource_of_runLines hrun
  rw [hlines, runLines_eq_passLines hk] at hrun
  obtain ⟨out₁, g₁, out', hbefore, hfrom, hout⟩ := passLines_append_eq_ok.1 hrun
  obtain ⟨t₀, g₂, out₂, hraw, hrest, rfl⟩ := passLines_cons_eq_ok hfrom
  obtain ⟨rfl, text, a, ha, hf, out, hentry, hnested⟩ := hi.passLine_eq_ok hfound rfl hraw
  obtain ⟨-, -, hread⟩ := entry_read hentry
  -- From the line on, the definitions have other places, which the outlines do not show.
  obtain ⟨g₂', hfile, hown⟩ := passLines_of_nested tagged (1 + before.length) hh hi hparent hentry
    (show g₁.macros.outline = (g₁.record i).macros.outline from rfl) hnested
  obtain ⟨g', hrest', hafter⟩ := passLines_parallel tagged (1 + (before ++ Text.lines text).length)
    ⟨hh, List.Subset.refl _, List.mem_cons_self, rfl⟩ hown.outline hrest
  obtain ⟨own, how, how', -⟩ := hown.includes
  obtain ⟨after, haf, haf', -⟩ := hafter.includes
  refine ⟨text, out₁, out₂, g₁, g₂, own, after, hread, ?_, ?_, hout, length_passLines hbefore,
    length_passLines hrest, ?_, haf, ?_⟩
  · rw [runLines_eq_passLines hk, hbefore]
  · rw [runLines_eq_passLines hk, passLines_append_eq_ok]
    refine ⟨out₁, g₁, [[]], hbefore, ?_, rfl⟩
    rw [passLines, hraw]
    rfl
  · rw [how, Progress.record, List.append_assoc, List.singleton_append]
  · intro script' hlines'
    have hrun' : p.runLines source tagged (sourceLines script') = .ok (out₁ ++ out ++ out₂, g') := by
      rw [hlines', runLines_eq_passLines hk, passLines_append_eq_ok]
      refine ⟨out₁ ++ out, g₂', out₂, ?_, hrest', rfl⟩
      exact passLines_append_eq_ok.2 ⟨out₁, g₁, out, hbefore, hfile, rfl⟩
    have ht' := lines_runLines hrun'
    refine ⟨Text.ofLines (out₁ ++ out ++ out₂), g', out, ?_, ht', length_passLines hfile, hafter.outline, ?_⟩
    · rw [run_eq_ok_iff, hrun', ht']
    · rw [haf', Include.map_moved_self, how']

theorem include_eq_paste_nested :
    let w : Text := "w".toText
    let a : Text := "a".toText
    let file := fun (name text : String) =>
      ([Utf8.encode "w".toList, Utf8.encode name.toList], Node.file (Utf8.encode text.toList))
    let p : Project := { tree := ⟨[([Utf8.encode "w".toList], .directory),
      file "b" "#define B A\r\n#include 'c'\r\nB C", file "c" "#define C 2"], [w]⟩ }
    let script := "#define A 1\n#include 'b'\nA B C".toText
    let pasted := "#define A 1\n#define B A\n#include 'c'\nB C\nA B C".toText
    let i : Include := ⟨"b".toText, a, "b".toText, ⟨.root, [w, "b".toText]⟩, true⟩
    let j : Include := ⟨"c".toText, "/w/b".toText, "c".toText, ⟨.root, [w, "c".toText]⟩, true⟩
    p.tree.here.Canonical ∧ p.Asks a "#include 'b'".toText i ∧
      i.path.parent = Include.directory p.tree.here a ∧ ∃ t g t' g' out,
        p.run a false script = .ok (t, g) ∧ p.run a false pasted = .ok (t', g') ∧
        Text.lines t = [[], [], "1 1 2".toText] ∧ Text.lines t' = [[]] ++ out ++ ["1 1 2".toText] ∧ out.length = 3 ∧
        g'.macros.outline = g.macros.outline ∧ g.includes = [i, j] ∧ g'.includes = [{ j with source := a }] := by
  intro w a file p script pasted i j
  have hh : p.tree.here.Canonical := by
    intro n hn
    obtain rfl : n = w := by simpa [p] using hn
    exact ⟨⟨by decide, by decide, by decide⟩, by decide⟩
  have hlines : sourceLines script = ["#define A 1".toText] ++ "#include 'b'".toText :: ["A B C".toText] := by
    decide +kernel
  have hi : p.Asks a "#include 'b'".toText i := by
    refine ⟨⟨"include".toText, "'b'".toText⟩, "b".toText, ?_, ?_, ?_, ?_⟩ <;> decide +kernel
  have hparent : i.path.parent = Include.directory p.tree.here a := by decide +kernel
  have hrun : (p.run a false script).map (fun r => (Text.lines r.1, r.2.includes)) =
      .ok ([[], [], "1 1 2".toText], [i, j]) := by
    decide +kernel
  have hfirst : (p.runLines a false ["#define A 1".toText]).map (·.2.includes) = .ok [] := by decide +kernel
  have hsecond : (p.runLines a false (["#define A 1".toText] ++ ["#include 'b'".toText])).map (·.2.includes) =
      .ok [i, j] := by
    decide +kernel
  have hfile : p.readText i.path = .ok "#define B A\n#include 'c'\nB C".toText := by decide +kernel
  obtain ⟨⟨t, g⟩, h, he⟩ := exists_of_map_eq_ok hrun
  obtain ⟨ht, hg⟩ := Prod.mk.inj he
  obtain ⟨text, out₁, out₂, g₁, g₂, own, after, htext, hbefore, hwith, hout, hlen₁, -, how, haf, hall⟩ :=
    include_eq_paste p a false hh hlines hi rfl hparent h
  obtain rfl : _ = text := Except.ok.inj (hfile.symm.trans htext)
  rw [hbefore] at hfirst
  rw [hwith] at hsecond
  have hg₁ : g₁.includes = [] := Except.ok.inj hfirst
  have hg₂ : g₂.includes = [i, j] := Except.ok.inj hsecond
  obtain ⟨t', g', out, hrun', ht', hlen, hmacros, hincludes⟩ := hall pasted (by decide +kernel)
  have happend : [[]] ++ [[], "1 1 2".toText] = out₁ ++ [] :: out₂ := ht.symm.trans hout
  obtain ⟨rfl, hrest⟩ := List.append_inj happend hlen₁.symm
  obtain ⟨-, rfl⟩ := List.cons.inj hrest
  refine ⟨hh, hi, hparent, t, g, t', g', out, h, hrun', ht, ht', hlen, hmacros, hg, ?_⟩
  rw [hg₁, hg₂] at how
  rw [hg, hg₂] at haf
  obtain rfl : own = [j] := by simpa using how.symm
  obtain rfl : after = [] := by simpa using haf
  rw [hincludes, hg₁]
  decide +kernel

end Project

end ScriptMacros
