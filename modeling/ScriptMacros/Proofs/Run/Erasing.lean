import ScriptMacros.Proofs.Run.Emptying
import ScriptMacros.Proofs.Run.Executing

namespace ScriptMacros

def IsUnevaluated (raw : Text) : Prop :=
  ∃ d, Directive.ofLine? (Line.normalize raw) = some d ∧ d.keyword ≠ "define".toText ∧ d.keyword ≠ "include".toText

instance IsUnevaluated.decidable (raw : Text) : Decidable (IsUnevaluated raw) :=
  decidable_of_iff ((Directive.ofLine? (Line.normalize raw)).any fun d =>
      decide (d.keyword ≠ "define".toText ∧ d.keyword ≠ "include".toText)) (by
    rw [IsUnevaluated, Option.any_eq_true]
    simp only [decide_eq_true_eq])

theorem Directive.kind_of_ne {d : Directive} (hd : d.keyword ≠ "define".toText) (hi : d.keyword ≠ "include".toText) :
    d.kind = .condition ∨ d.kind = .unknown := by
  rw [kind, Kind.ofKeyword, if_neg hd, if_neg hi]
  split
  · exact Or.inl rfl
  · exact Or.inr rfl

theorem IsUnevaluated.exists_kind {raw : Text} (h : IsUnevaluated raw) :
    ∃ d, Directive.ofLine? (Line.normalize raw) = some d ∧ (d.kind = .condition ∨ d.kind = .unknown) := by
  obtain ⟨d, hd, hdefine, hinclude⟩ := h
  exact ⟨d, hd, Directive.kind_of_ne hdefine hinclude⟩

/-- Lines of a script and of files, by their positions. -/
structure Choice where
  script : Nat → Bool
  files : Place → Nat → Bool

namespace Choice

def ofFile (c : Choice) (here : Address) (f : OpenFile) : Nat → Bool :=
  if f.outer = [] then c.script
  else
    match ((Path.ofText f.source).address here).place? with
    | some q => c.files q
    | none => fun _ => false

def takes (c : Choice) (here : Address) (l : ScriptLine) : Bool := c.ofFile here l.file (l.number - 1)

def kept (c : Choice) (here : Address) (lines : List ScriptLine) : List ScriptLine :=
  lines.filter fun l => !c.takes here l

def chosenFrom (c : Choice) (here : Address) (f : OpenFile) (n : Nat) : Nat → Bool :=
  fun i => c.ofFile here f (n + i - 1)

structure Within (c : Choice) (p : Project) (script : Text) (E : Text → Prop) : Prop where
  script : Chooses E c.script (sourceLines script)
  files : ∀ q bytes r t, (q, Node.file bytes r) ∈ p.tree.nodes → p.decode bytes = .ok t →
    Chooses E (c.files q) (sourceLines t)

theorem chosenFrom_tail (c : Choice) (here : Address) (f : OpenFile) (n : Nat) :
    (fun i => c.chosenFrom here f n (i + 1)) = c.chosenFrom here f (n + 1) := by
  funext i
  rw [chosenFrom, chosenFrom, Nat.add_comm i 1, Nat.add_assoc]

theorem chosenFrom_one (c : Choice) (here : Address) (f : OpenFile) : c.chosenFrom here f 1 = c.ofFile here f := by
  funext i
  rw [chosenFrom, Nat.add_sub_cancel_left]

theorem kept_append (c : Choice) (here : Address) (lines later : List ScriptLine) :
    c.kept here (lines ++ later) = c.kept here lines ++ c.kept here later :=
  List.filter_append ..

theorem ofFile_nested (c : Choice) {here : Address} {f : OpenFile} {i : Include} {q : Place} (hi : i.path.Sound)
    (hq : (i.path.address here).place? = some q) : c.ofFile here (f.nested i) = c.files q := by
  have hne : (f.nested i).outer ≠ [] := by simp [OpenFile.nested, OpenFile.names]
  rw [ofFile, if_neg hne, OpenFile.nested, Path.ofText_toText hi, hq]

end Choice

def Progress.recording (is : List Include) (g : Progress) : Progress := { g with includes := is }

theorem Progress.eq_recording {g g' : Progress} (h : g'.macros = g.macros) : g' = g.recording g'.includes := by
  rw [recording, ← h]

namespace Project

def recording {α : Type} (is : List Include) : Except Halt (α × Progress) → Except Halt (α × Progress)
  | .ok r => .ok (r.1, r.2.recording is)
  | .error halt => .error { halt with progress := halt.progress.recording is }

theorem recording_map {α β : Type} (is : List Include) (k : α → β) (x : Except Halt (α × Progress)) :
    (recording is x).map (fun r => (k r.1, r.2)) = recording is (x.map fun r => (k r.1, r.2)) := by
  cases x <;> rfl

variable {p : Project} {c : Choice} {tree : FileTree} {active : List Address} {source : Text} {tagged : Bool}
  {place : Location} {raw script : Text} {g g' g₁ : Progress} {i : Include} {n : Nat} {f : OpenFile} {l : ScriptLine}
  {lines later : List ScriptLine} {rest : List Text}

inductive NodeErased (p : Project) (chosen : Nat → Bool) : Node → Node → Prop
  | directory (r : Rights) : NodeErased p chosen (.directory r) (.directory r)
  | unusable {bytes : List UInt8} {f : ReadFault} (r : Rights) : p.decode bytes = .error f →
      NodeErased p chosen (.file bytes r) (.file bytes r)
  | file {bytes bytes' : List UInt8} {t t' : Text} (r : Rights) : p.decode bytes = .ok t → p.decode bytes' = .ok t' →
      sourceLines t' = emptied chosen (sourceLines t) → NodeErased p chosen (.file bytes r) (.file bytes' r)

structure TreeErased (p : Project) (c : Choice) (tree : FileTree) : Prop where
  here : tree.here = p.tree.here
  nodes : List.Forall₂ (fun x y => y.1 = x.1 ∧ p.NodeErased (c.files x.1) x.2 y.2) p.tree.nodes tree.nodes

namespace TreeErased

theorem treeEmptied {E : Text → Prop} (h : p.TreeErased c tree) (hc : ∀ q bytes r t,
    (q, Node.file bytes r) ∈ p.tree.nodes → p.decode bytes = .ok t → Chooses E (c.files q) (sourceLines t)) :
    p.TreeEmptied E tree := by
  have hmem : ∀ x ∈ p.tree.nodes, ∀ bytes r t, x.2 = .file bytes r → p.decode bytes = .ok t →
      Chooses E (c.files x.1) (sourceLines t) := by
    rintro ⟨q, n⟩ hx bytes r t rfl
    exact hc q bytes r t hx
  refine ⟨h.here, ((List.forall₂_and_left _ _).2 ⟨hmem, h.nodes⟩).imp ?_⟩
  rintro x y ⟨hx, hplace, hn⟩
  refine ⟨hplace, ?_⟩
  generalize x.2 = n at hx hn
  generalize y.2 = n' at hn
  cases hn with
  | directory => exact .same _
  | unusable => exact .same _
  | file r hd hd' hl => exact .file _ hd hd' (hx _ _ _ rfl hd) hl

variable (h : p.TreeErased c tree)
include h

theorem emptied_any : p.TreeEmptied (fun _ => True) tree := h.treeEmptied fun _ _ _ _ _ _ _ _ _ _ => trivial

theorem readText_eq (q : Path) :
    (∃ f, p.readText q = .error f ∧ Project.readText { p with tree := tree } q = .error f) ∨
      ∃ place t t', (q.address p.tree.here).place? = some place ∧ p.readText q = .ok t ∧
        Project.readText { p with tree := tree } q = .ok t' ∧
        sourceLines t' = emptied (c.files place) (sourceLines t) := by
  rw [readText, readText]
  dsimp only
  split
  · exact Or.inl ⟨_, rfl, rfl⟩
  rcases h.emptied_any.read_eq q with ⟨f, hf, hf'⟩ | ⟨bytes, bytes', -, hb, hb', -⟩
  · rw [hf, hf']
    exact Or.inl ⟨_, rfl, rfl⟩
  · obtain ⟨place, r, hplace, hnode⟩ := FileTree.exists_get?_of_file? (FileTree.read_eq_ok hb)
    obtain ⟨place', r', hplace', hnode'⟩ := FileTree.exists_get?_of_file? (FileTree.read_eq_ok hb')
    rw [h.here, hplace] at hplace'
    cases hplace'
    have hrel := rel_get? (R := fun q => p.NodeErased (c.files q)) h.nodes place
    rw [hnode, hnode'] at hrel
    rw [hb, hb']
    cases hrel with
    | some he =>
      cases he with
      | unusable r hd => exact Or.inl ⟨_, hd, hd⟩
      | file r hd hd' hl => exact Or.inr ⟨place, _, _, hplace, hd, hd', hl⟩

end TreeErased

inductive EntryErased {p p' : Project} {active : List Address} (c : Choice) : p.Entry active → p'.Entry active → Prop
  | absent : EntryErased c .absent .absent
  | circular (a : Address) : EntryErased c (.circular a) (.circular a)
  | unusable (f : ReadFault) : EntryErased c (.unusable f) (.unusable f)
  | text {t t' : Text} {a : Address} {ha : a ∉ active} {hf : a ∈ p.tree.addresses} {hf' : a ∈ p'.tree.addresses}
      {q : Place} : a.place? = some q → sourceLines t' = emptied (c.files q) (sourceLines t) →
      EntryErased c (.text t a ha hf) (.text t' a ha hf')

structure Omits (c : Choice) (p p' : Project) : Prop where
  here : p'.tree.here = p.tree.here
  limit : p'.options.limit = p.options.limit
  resolve : ∀ requested source, Include.resolve p'.options.prefixes p'.tree requested source =
    Include.resolve p.options.prefixes p.tree requested source
  entry : ∀ active i, EntryErased c (p.entry active i) (p'.entry active i)

theorem TreeErased.entry (h : p.TreeErased c tree) (active : List Address) (i : Include) :
    EntryErased c (p.entry active i) (Project.entry { p with tree := tree } active i) := by
  cases hfound : i.found with
  | false =>
    rw [entry_of_not_found hfound, entry_of_not_found hfound]
    exact .absent
  | true =>
    by_cases ha : i.path.address p.tree.here ∈ active
    · rw [entry_of_mem hfound ha, entry_of_mem hfound (h.here.symm ▸ ha), h.here]
      exact .circular _
    · have ha' : i.path.address tree.here ∉ active := h.here.symm ▸ ha
      rcases h.readText_eq i.path with ⟨f, hf, hf'⟩ | ⟨q, t, t', hq, ht, ht', hl⟩
      · have hentry' : Project.entry { p with tree := tree } active i = .unusable f := entry_of_fault hfound hf' ha'
        rw [entry_of_fault hfound hf ha, hentry']
        exact .unusable f
      · obtain ⟨hf, he⟩ := entry_of_read hfound ht ha
        have hentry' := entry_of_read (p := { p with tree := tree }) hfound ht' ha'
        simp only [h.here] at hentry'
        obtain ⟨hf', he'⟩ := hentry'
        rw [he, he']
        exact .text hq hl

theorem TreeErased.omits (h : p.TreeErased c tree) : Omits c p { p with tree := tree } where
  here := h.here
  limit := rfl
  resolve := fun requested source => h.emptied_any.resolve_eq _ requested source
  entry := h.entry

/-- A line that changes nothing but perhaps the records: it is never evaluated, or asks for a file that is not there. -/
def Idle (p : Project) (l : ScriptLine) : Prop :=
  IsUnevaluated l.raw ∨ ∃ i, p.Asks l.file.source l.raw i ∧ i.found = false

instance Idle.decidable (p : Project) (l : ScriptLine) : Decidable (p.Idle l) :=
  decidable_of_iff (IsUnevaluated l.raw ∨ (p.asked? l.file.source l.raw).any (·.found = false)) (by
    rw [Idle, Option.any_eq_true]
    simp only [asked?_eq_some_iff, decide_eq_true_eq])

variable {p' : Project} {entering : Entering p active} {entering' : Entering p' active}

theorem Asks.kind_inclusion {d : Directive} (h : p.Asks source raw i)
    (hd : Directive.ofLine? (Line.normalize raw) = some d) : d.kind = .inclusion := by
  obtain ⟨d', requested, hd', hk, -⟩ := h
  rw [Option.some.inj (hd.symm.trans hd')]
  exact hk

theorem passLine_of_unevaluated (h : IsUnevaluated raw) :
    p.passLine active entering tagged place raw g = .ok ([], g) := by
  obtain ⟨d, hd, hk⟩ := h.exists_kind
  unfold passLine
  dsimp only
  rw [hd]
  dsimp only
  rw [applyDirective, dispatch]
  rcases hk with hk | hk <;> simp only [hk] <;> rfl

theorem Idle.passLine_eq [entering.Settles] (h : p.Idle l) : ∃ g₁, g₁.macros = g.macros ∧
    p.passLine active entering tagged l.place l.raw g = .ok ([], g₁) := by
  rcases h with h | ⟨i, hi, hfound⟩
  · exact ⟨g, rfl, passLine_of_unevaluated h⟩
  · have hline : p.Asks l.place.file l.raw i := hi
    refine ⟨g.record i, rfl, ?_⟩
    rw [hline.passLine, enter, entry_of_not_found hfound]
    rfl

theorem Idle.target?_eq_none (h : p.Idle l) : p.target? active l.file.source l.raw = none := by
  cases ht : p.target? active l.file.source l.raw with
  | none => rfl
  | some e =>
    obtain ⟨hi, he⟩ := target?_eq_some ht
    rcases h with h | ⟨i, hi', hfound⟩
    · obtain ⟨d, hd, hk⟩ := h.exists_kind
      rcases hk with hk | hk <;> cases hk.symm.trans (hi.kind_inclusion hd)
    · obtain rfl : e.inclusion = i := by
        rw [← asked?_eq_some_iff] at hi hi'
        exact Option.some.inj (hi.symm.trans hi')
      cases (entry_of_not_found hfound).symm.trans he

section

variable (h : Omits c p p')
include h

theorem Omits.enter (hnone : ∀ t a ha hf, p.entry active i ≠ .text t a ha hf) (hg : g'.macros = g.macros) :
    (p'.enter active entering' place i g').map (([] : Text), ·) =
      recording g'.includes ((p.enter active entering place i g).map (([] : Text), ·)) := by
  rw [Progress.eq_recording hg, Project.enter, Project.enter]
  have he := h.entry active i
  generalize p.entry active i = e at he hnone
  generalize p'.entry active i = e' at he
  cases he with
  | absent => rfl
  | circular a => rfl
  | unusable f => rfl
  | text => exact absurd rfl (hnone _ _ _ _)

theorem Omits.passLine_of_not_asks [entering.Settles] [entering'.Settles] (hnone : ∀ i, ¬p.Asks place.file raw i)
    (hg : g'.macros = g.macros) :
    p'.passLine active entering' tagged place raw g' =
      recording g'.includes (p.passLine active entering tagged place raw g) := by
  rw [Progress.eq_recording hg]
  unfold passLine
  dsimp only
  cases hd : Directive.ofLine? (Line.normalize raw) with
  | none =>
    dsimp only [Progress.recording]
    rw [h.limit]
    cases g.macros.expand p.options.limit (Line.normalize raw) <;> rfl
  | some d =>
    dsimp only
    rw [applyDirective_eq, applyDirective_eq]
    cases hk : d.kind with
    | define => cases Declaration.parse d.value <;> rfl
    | inclusion =>
      cases hr : Directive.fileName d.value with
      | error f => rfl
      | ok requested =>
        dsimp only
        rw [h.resolve]
        cases hi : Include.resolve p.options.prefixes p.tree requested place.file with
        | error e => rfl
        | ok i => exact absurd ⟨d, requested, hd, hk, hr, hi⟩ (hnone i)
    | condition => rfl
    | unknown => rfl

theorem Omits.asks (hi : p.Asks source raw i) : p'.Asks source raw i := by
  obtain ⟨d, requested, hd, hk, hr, hi⟩ := hi
  exact ⟨d, requested, hd, hk, hr, (h.resolve _ _).trans hi⟩

theorem Omits.passLine_kept [entering.Settles] [entering'.Settles]
    (hnone : p.target? active l.file.source l.raw = none) (hg : g'.macros = g.macros) :
    p'.passLine active entering' tagged l.place l.raw g' =
      recording (g'.includes ++ p.records [l]) (p.passLine active entering tagged l.place l.raw g) := by
  rw [records_cons, records, List.filterMap_nil, List.append_nil]
  cases hi : p.asked? l.file.source l.raw with
  | none =>
    rw [Option.toList_none, List.append_nil]
    apply h.passLine_of_not_asks _ hg
    intro i ha
    cases hi.symm.trans (asked?_eq_some_iff.2 ha)
  | some i =>
    have ha : p.Asks l.place.file l.raw i := asked?_eq_some_iff.1 hi
    have ha' : p'.Asks l.place.file l.raw i := h.asks ha
    rw [ha.passLine, ha'.passLine]
    have hmacros : (g'.record i).macros = (g.record i).macros := hg
    exact h.enter (fun t a ha' hf => entry_ne_text hnone ha) hmacros

end

theorem Idle.passLine_nil [entering.Settles] (h : p.Idle l) (hg : g'.macros = g.macros) (hnamed : Named g) :
    p'.passLine active entering' tagged l.place [] g' =
      recording g'.includes (p.passLine active entering tagged l.place l.raw g) := by
  obtain ⟨g₁, hg₁, hl⟩ : ∃ g₁, g₁.macros = g.macros ∧
      p.passLine active entering tagged l.place l.raw g = .ok ([], g₁) :=
    h.passLine_eq
  have hnamed' : Named g' := by rwa [Named, hg]
  rw [hl, Accompanies.passLine_nil entering' hnamed']
  exact congrArg (fun g => Except.ok ([], g)) (Progress.eq_recording (hg.trans hg₁.symm))

theorem passLines_cons_erased {here : Address} {raw' : Text} {rest' : List Text} (inner : List ScriptLine)
    {later : List ScriptLine} (hidle : ∀ l ∈ p.executedFrom g (inner ++ later), c.takes here l = true → p.Idle l)
    (hact : (p.passLine active entering tagged ⟨source, n, 1⟩ raw g).map (·.2) = inner.foldlM p.act g)
    (hline : (∀ l ∈ p.executedFrom g inner, c.takes here l = true → p.Idle l) →
      p'.passLine active entering' tagged ⟨source, n, 1⟩ raw' g' =
        recording (g'.includes ++ p.records (c.kept here (p.executedFrom g inner)))
          (p.passLine active entering tagged ⟨source, n, 1⟩ raw g))
    (hrest : ∀ t g₁ g₁', p.passLine active entering tagged ⟨source, n, 1⟩ raw g = .ok (t, g₁) →
      g₁'.macros = g₁.macros → (∀ l ∈ p.executedFrom g₁ later, c.takes here l = true → p.Idle l) →
      p'.passLines active entering' source tagged (n + 1) rest' g₁' =
        recording (g₁'.includes ++ p.records (c.kept here (p.executedFrom g₁ later)))
          (p.passLines active entering source tagged (n + 1) rest g₁)) :
    p'.passLines active entering' source tagged n (raw' :: rest') g' =
      recording (g'.includes ++ p.records (c.kept here (p.executedFrom g (inner ++ later))))
        (p.passLines active entering source tagged n (raw :: rest) g) := by
  have hline' := hline fun l hl => hidle l (executedFrom_subset_append g inner later hl)
  rw [passLines_cons, passLines_cons, hline']
  cases hr : p.passLine active entering tagged ⟨source, n, 1⟩ raw g with
  | error halt =>
    rw [hr] at hact
    rw [executedFrom_append_of_error hact.symm]
    rfl
  | ok r =>
    obtain ⟨t, g₁⟩ := r
    rw [hr] at hact
    have hinner : inner.foldlM p.act g = .ok g₁ := hact.symm
    rw [executedFrom_append hinner] at hidle
    rw [executedFrom_append hinner, executedFrom_of_ok hinner, c.kept_append, records_append, ← List.append_assoc]
    have hrest' := hrest t g₁ (g₁.recording (g'.includes ++ p.records (c.kept here inner))) hr rfl fun l hl =>
      hidle l (List.mem_append_right _ hl)
    dsimp only [Except.bind, recording]
    rw [hrest']
    exact recording_map _ _ _

theorem Omits.passLine_single [entering.Settles] [entering'.Settles] (h : Omits c p p') {here : Address}
    (hnone : p.target? active l.file.source l.raw = none) (hg : g'.macros = g.macros) (hnamed : Named g)
    (hidle : ∀ l' ∈ p.executedFrom g [l], c.takes here l' = true → p.Idle l') :
    p'.passLine active entering' tagged l.place (if c.takes here l then [] else l.raw) g' =
      recording (g'.includes ++ p.records (c.kept here (p.executedFrom g [l])))
        (p.passLine active entering tagged l.place l.raw g) := by
  rw [executedFrom_singleton] at hidle ⊢
  cases hc : c.takes here l with
  | false =>
    have hkept : c.kept here [l] = [l] := by simp [Choice.kept, hc]
    rw [hkept]
    exact h.passLine_kept hnone hg
  | true =>
    have hkept : c.kept here [l] = [] := by simp [Choice.kept, hc]
    rw [hkept, records, List.filterMap_nil, List.append_nil]
    exact (hidle l List.mem_cons_self hc).passLine_nil hg hnamed

theorem Omits.passLine_enters {e : Target p active} {is : List Include} (h : Omits c p p')
    (hh : p.tree.here.Canonical) (he : p.target? active f.source raw = some e)
    (hinner : p'.passLines (active ++ [e.address]) (p'.nested _) e.inclusion.path.toText true 1
        (emptied (c.chosenFrom p.tree.here (f.nested e.inclusion) 1) (sourceLines e.text)) (g'.record e.inclusion) =
      recording is (p.passLines (active ++ [e.address]) (p.nested _) e.inclusion.path.toText true 1
        (sourceLines e.text) (g.record e.inclusion))) :
    p'.passLine active (p'.nested active) tagged ⟨f.source, n, 1⟩ raw g' =
      recording is (p.passLine active (p.nested active) tagged ⟨f.source, n, 1⟩ raw g) := by
  obtain ⟨hi, hentry⟩ := target?_eq_some he
  obtain ⟨requested, hresolve⟩ := hi.resolves
  have hline : p.Asks (Location.mk f.source n 1).file raw e.inclusion := hi
  have haddress : e.inclusion.path.address p.tree.here = e.address := (entry_eq_text hentry).1.symm
  have hrel := h.entry active e.inclusion
  rw [hentry] at hrel
  rw [hline.passLine, (h.asks hline).passLine, Project.enter, Project.enter, hentry]
  generalize p'.entry active e.inclusion = e' at hrel
  cases hrel with
  | text hq hl =>
    rw [← haddress] at hq
    rw [c.chosenFrom_one, c.ofFile_nested (Include.sound_of_resolve hh hresolve) hq, ← hl] at hinner
    dsimp only
    rw [nested, nested, pass_eq, pass_eq, hinner]
    generalize p.passLines (active ++ [e.address]) _ _ _ _ _ _ = x
    cases x <;> rfl

theorem Omits.passLines (h : Omits c p p') (hh : p.tree.here.Canonical) (hactive : active = f.active p.tree.here)
    (hl : ∀ raw ∈ rest, .char '\n' ∉ raw ∧ .char '\r' ∉ raw) (hg : g'.macros = g.macros) (hnamed : Named g)
    (hidle : ∀ l ∈ p.executedFrom g (p.depthFirst active f n rest), c.takes p.tree.here l = true → p.Idle l) :
    p'.passLines active (p'.nested active) f.source f.tagged n (emptied (c.chosenFrom p.tree.here f n) rest) g' =
      recording (g'.includes ++ p.records (c.kept p.tree.here (p.executedFrom g (p.depthFirst active f n rest))))
        (p.passLines active (p.nested active) f.source f.tagged n rest g) := by
  -- Both runs go through the same lines with the same macros; the second one has records of its own.
  fun_induction depthFirst p active f n rest generalizing g g' with
  | case1 =>
    refine congrArg (fun g => Except.ok ([], g)) ?_
    rw [executedFrom, Choice.kept, List.filter_nil, records, List.filterMap_nil, List.append_nil]
    exact Progress.eq_recording hg
  | case2 active f n raw rest hnone ih =>
    obtain ⟨hraw, hrest⟩ := List.forall_mem_cons.1 hl
    rw [emptied_cons, c.chosenFrom_tail]
    refine passLines_cons_erased [⟨f, n, raw⟩] hidle ?_ ?_ ?_
    · rw [passLine_of_target_eq_none hactive hnone, List.foldlM_cons]
      exact (bind_pure _).symm
    · exact h.passLine_single (l := ⟨f, n, raw⟩) hnone hg hnamed
    · intro t g₁ g₁' hline hg₁ hlater
      exact ih hactive hrest hg₁ (Named.stable.passLine Named.stable.nested hraw.1 hraw.2 hnamed hline).1 hlater
  | case3 active f n raw rest e he ihinner ih =>
    obtain ⟨hraw, hrest⟩ := List.forall_mem_cons.1 hl
    rw [emptied_cons, c.chosenFrom_tail]
    refine passLines_cons_erased (⟨f, n, raw⟩ :: _) hidle ?_ ?_ ?_
    · rw [List.foldlM_cons, act_of_target hactive he, passLine_of_target he, nested, pass_eq]
      exact passLines_eq_foldlM hh (Target.active_nested hh hactive he)
    · intro hinner
      -- A line that enters a file is not idle, so it is kept.
      have hkeep : c.takes p.tree.here ⟨f, n, raw⟩ = false := by
        rw [Bool.eq_false_iff]
        intro hc
        have hl := hinner _ (executedFrom_cons (act_of_target hactive he) _ ▸ List.mem_cons_self) hc
        have hnone : p.target? active f.source raw = none := hl.target?_eq_none
        cases hnone.symm.trans he
      have hasked : p.asked? f.source raw = some e.inclusion := asked?_eq_some_iff.2 (target?_eq_some he).1
      rw [executedFrom_cons (act_of_target hactive he)] at hinner ⊢
      rw [if_neg (Bool.not_eq_true _ ▸ hkeep), Choice.kept, List.filter_cons_of_pos (by rw [hkeep]; rfl), records_cons,
        hasked, ← List.append_assoc]
      apply h.passLine_enters hh he
      exact ihinner (Target.active_nested hh hactive he) (fun raw hraw => sourceLines_clean hraw) hg
        (Named.stable.record _ hnamed) fun l hl => hinner l (List.mem_cons_of_mem _ hl)
    · intro t g₁ g₁' hline hg₁ hlater
      exact ih hactive hrest hg₁ (Named.stable.passLine Named.stable.nested hraw.1 hraw.2 hnamed hline).1 hlater

theorem Omits.runLines (h : Omits c p p') (hh : p.tree.here.Canonical)
    (hidle : ∀ l ∈ p.executed source tagged script, c.takes p.tree.here l = true → p.Idle l) :
    p'.runLines source tagged (emptied c.script (sourceLines script)) =
      recording (p.records (c.kept p.tree.here (p.executed source tagged script)))
        (p.runLines source tagged (sourceLines script)) := by
  cases hs : FileTree.askSource source with
  | error f =>
    rw [executed, Project.runLines, Project.runLines, hs]
    rfl
  | ok k =>
    rw [executed, hs] at hidle ⊢
    rw [runLines_eq_passLines hs, runLines_eq_passLines hs, h.here]
    have hscript : c.chosenFrom p.tree.here ⟨[], source, tagged⟩ 1 = c.script := c.chosenFrom_one _ _
    rw [← hscript]
    exact h.passLines hh (f := ⟨[], source, tagged⟩) rfl (fun raw hraw => sourceLines_clean hraw) rfl
      (by simp [Named, MacroTable.names, MacroTable.empty]) hidle

theorem emptied_of_written {Q : Progress → Prop} {chosen : Nat → Bool} {lines out : List Text}
    (hc : Chooses IsUnevaluated chosen lines) (h : List.Forall₂ (p.Written Q) lines out) :
    emptied chosen out = out := by
  induction h generalizing chosen with
  | nil => rfl
  | @cons raw t rest out hw _ ih =>
    rw [emptied_cons, ih hc.tail]
    split
    · next h₀ =>
      obtain ⟨d, hd, -⟩ := hc.head h₀
      rcases hw with ⟨-, rfl⟩ | ⟨hnone, -⟩
      · rfl
      · cases hd.symm.trans hnone
    · rfl

theorem written_runLines {out : List Text} (h : p.runLines source tagged (sourceLines script) = .ok (out, g)) :
    List.Forall₂ (p.Written fun _ => True) (sourceLines script) out := by
  have hk := askSource_of_runLines h
  rw [runLines, hk] at h
  have hstable : Stable fun _ => True := ⟨fun _ _ _ _ _ _ _ => trivial, fun _ _ => trivial⟩
  exact (hstable.pass (fun raw hraw => sourceLines_clean hraw) trivial h).2

theorem TreeErased.runLines_eq (h : p.TreeErased c tree) (hc : c.Within p script IsUnevaluated) (source : Text)
    (tagged : Bool) :
    Project.runLines { p with tree := tree } source tagged (emptied c.script (sourceLines script)) =
      p.runLines source tagged (sourceLines script) := by
  have hp' : p.Accompanies (fun _ => True) IsUnevaluated { p with tree := tree } := by
    refine (h.treeEmptied hc.files).accompanies fun raw hraw active entering tagged place g => ?_
    rw [passLine_of_unevaluated hraw]
    exact .ok ([], g)
  have hfollows := hp'.runLines source tagged hc.script
  cases hrun : p.runLines source tagged (sourceLines script) with
  | error halt => exact hfollows.eq_error hrun trivial
  | ok r =>
    rw [hfollows.eq_ok hrun, emptied_of_written hc.script (written_runLines hrun)]

/-- A run comes to the same without any directives that are never evaluated. It comes to the same, up to the records of
the lines that are left out, without lines that are never evaluated or ask for a missing file whenever they are
executed. -/
theorem run_erased (p : Project) (source : Text) (tagged : Bool) (hh : p.tree.here.Canonical) {c : Choice}
    {tree : FileTree} {script script' : Text} (htree : p.TreeErased c tree)
    (hlines : sourceLines script' = emptied c.script (sourceLines script)) :
    (c.Within p script IsUnevaluated →
      Project.run { p with tree := tree } source tagged script' = p.run source tagged script) ∧
    ((Report.ofRun (p.run source tagged script)).progress.includes = p.records (p.executed source tagged script) ∧
      ((∀ l ∈ p.executed source tagged script, c.takes p.tree.here l = true → p.Idle l) →
        Project.run { p with tree := tree } source tagged script' =
          recording (p.records (c.kept p.tree.here (p.executed source tagged script)))
            (p.run source tagged script))) := by
  refine ⟨?_, includes_executed hh, ?_⟩
  · intro hc
    rw [run, run, hlines, htree.runLines_eq hc]
  · intro hidle
    rw [run, run, hlines, htree.omits.runLines hh hidle]
    exact recording_map _ _ _

theorem run_erased_nested :
    let file := fun text : String => [([[97]], Node.file (Utf8.encode text.toList))]
    let p : Project := { tree := ⟨file "#else )(\n#define A 1\n#include '/b'", []⟩ }
    let source : Text := "main".toText
    let script := "#include 'a'\n#include 'c'\nA\n#ifdef A".toText
    let idle : Choice := ⟨fun i => i == 1, fun _ i => i == 0 || i == 2⟩
    let unevaluated : Choice := ⟨fun i => i == 3, fun _ i => i == 0⟩
    let tree : FileTree := ⟨file "\n#define A 1\n", []⟩
    let tree' : FileTree := ⟨file "\n#define A 1\n#include '/b'", []⟩
    p.tree.here.Canonical ∧ p.TreeErased idle tree ∧ p.TreeErased unevaluated tree' ∧
      unevaluated.Within p script IsUnevaluated ∧
      (∀ l ∈ p.executed source false script, idle.takes p.tree.here l = true → p.Idle l) ∧
      ∃ t g, p.run source false script = .ok (t, g) ∧ Text.lines t = [[], [], "1".toText, []] ∧
        g.includes.map (·.requested) = ["a".toText, "/b".toText, "c".toText] ∧
        Project.run { p with tree := tree' } source false "#include 'a'\n#include 'c'\nA\n".toText = .ok (t, g) ∧
        Project.run { p with tree := tree } source false "#include 'a'\n\nA\n#ifdef A".toText =
          .ok (t, g.recording (p.records (idle.kept p.tree.here (p.executed source false script)))) := by
  intro file p source script idle unevaluated tree tree'
  have hh : p.tree.here.Canonical := by
    intro n hn
    contradiction
  have hdecode : p.decode (Utf8.encode "#else )(\n#define A 1\n#include '/b'".toList) =
      .ok "#else )(\n#define A 1\n#include '/b'".toText := by
    decide +kernel
  have htree : p.TreeErased idle tree := by
    have hd : p.decode (Utf8.encode "\n#define A 1\n".toList) = .ok "\n#define A 1\n".toText := by decide +kernel
    exact ⟨rfl, .cons ⟨rfl, .file {} hdecode hd (by decide +kernel)⟩ .nil⟩
  have htree' : p.TreeErased unevaluated tree' := by
    have hd : p.decode (Utf8.encode "\n#define A 1\n#include '/b'".toList) =
        .ok "\n#define A 1\n#include '/b'".toText := by
      decide +kernel
    exact ⟨rfl, .cons ⟨rfl, .file {} hdecode hd (by decide +kernel)⟩ .nil⟩
  have hwithin : unevaluated.Within p script IsUnevaluated := by
    refine ⟨by decide +kernel, ?_⟩
    intro q bytes r t hmem ht
    cases List.mem_singleton.1 hmem
    cases hdecode.symm.trans ht
    decide +kernel
  have hidle : ∀ l ∈ p.executed source false script, idle.takes p.tree.here l = true → p.Idle l := by
    let f : OpenFile := ⟨[], source, false⟩
    let active := [(Path.ofText source).address p.tree.here]
    let i : Include := ⟨['a'], source, "a".toText, ⟨.root, ["a".toText]⟩, true⟩
    let rest := ["#include 'c'".toText, "A".toText, "#ifdef A".toText]
    let inner := ["#else )(".toText, "#define A 1".toText, "#include '/b'".toText]
    have hsome : (p.target? active f.source "#include 'a'".toText).map (fun e =>
        (e.inclusion, sourceLines e.text, e.address)) = some (i, inner, ["a".toText]) := by
      decide +kernel
    have hnone : ∀ raw ∈ rest, p.target? active f.source raw = none := by
      simp only [← Option.isNone_iff_eq_none]
      decide +kernel
    have hnone' : ∀ raw ∈ inner, p.target? (active ++ [["a".toText]]) (f.nested i).source raw = none := by
      simp only [← Option.isNone_iff_eq_none]
      decide +kernel
    obtain ⟨e, he, hfields⟩ := Option.map_eq_some_iff.1 hsome
    simp only [Prod.mk.injEq] at hfields
    obtain ⟨hinclusion, hinner, haddress⟩ := hfields
    have hfirst : sourceLines script = "#include 'a'".toText :: rest := by decide +kernel
    intro l hl
    have hmem : l ∈ p.depthFirst active f 1 (sourceLines script) := executed_subset hl
    rw [hfirst, depthFirst_of_some he, hinner, haddress, hinclusion, depthFirst_of_forall_none hnone,
      depthFirst_of_forall_none hnone'] at hmem
    clear hl
    revert l
    decide +kernel
  have hrun : (p.run source false script).map (fun r => (Text.lines r.1, r.2.includes.map (·.requested))) =
      .ok ([[], [], "1".toText, []], ["a".toText, "/b".toText, "c".toText]) := by
    decide +kernel
  obtain ⟨⟨t, g⟩, h, he⟩ := exists_of_map_eq_ok hrun
  obtain ⟨ht, hg⟩ := Prod.mk.inj he
  have hlines : sourceLines "#include 'a'\n\nA\n#ifdef A".toText = emptied idle.script (sourceLines script) := by
    decide +kernel
  have hlines' : sourceLines "#include 'a'\n#include 'c'\nA\n".toText =
      emptied unevaluated.script (sourceLines script) := by
    decide +kernel
  have hunevaluated := (run_erased p source false hh htree' hlines').1 hwithin
  have herased := (run_erased p source false hh htree hlines).2.2 hidle
  rw [h] at hunevaluated herased
  exact ⟨hh, htree, htree', hwithin, hidle, t, g, h, ht, hg, hunevaluated, herased⟩

end Project

end ScriptMacros
