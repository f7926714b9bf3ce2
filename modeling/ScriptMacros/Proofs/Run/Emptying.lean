import Mathlib.Data.List.Forall2
import ScriptMacros.Proofs.Run.Following

namespace ScriptMacros

namespace Project

variable {p : Project} {E : Text → Prop} {tree : FileTree}

inductive NodeEmptied (p : Project) (E : Text → Prop) : Node → Node → Prop
  | same (n : Node) : NodeEmptied p E n n
  | file {bytes bytes' : List UInt8} {rights : Rights} {t t' : Text} (chosen : Nat → Bool) : p.decode bytes = .ok t →
      p.decode bytes' = .ok t' → Chooses E chosen (sourceLines t) → sourceLines t' = emptied chosen (sourceLines t) →
      NodeEmptied p E (.file bytes rights) (.file bytes' rights)

structure TreeEmptied (p : Project) (E : Text → Prop) (tree : FileTree) : Prop where
  here : tree.here = p.tree.here
  nodes : List.Forall₂ (fun x y => y.1 = x.1 ∧ p.NodeEmptied E x.2 y.2) p.tree.nodes tree.nodes

theorem rel_get? {R : Place → Node → Node → Prop} {l l' : List (Place × Node)}
    (h : List.Forall₂ (fun x y => y.1 = x.1 ∧ R x.1 x.2 y.2) l l') (q : Place) :
    Option.Rel (R q) (Association.get? q l) (Association.get? q l') := by
  induction h with
  | nil => exact .none
  | @cons x y l l' hxy _ ih =>
    obtain ⟨a, n⟩ := x
    obtain ⟨a', n'⟩ := y
    obtain ⟨rfl, hn⟩ := hxy
    dsimp only at hn ⊢
    rw [Association.get?, Association.get?]
    split
    · next he =>
      subst he
      exact .some hn
    · exact ih

namespace TreeEmptied

variable (h : p.TreeEmptied E tree)
include h

theorem node? (a : Address) : Option.Rel (p.NodeEmptied E) (p.tree.node? a) (tree.node? a) := by
  rw [FileTree.node?, FileTree.node?]
  split
  · exact .some (.same _)
  · cases a.place? with
    | none => exact .none
    | some q => exact rel_get? (R := fun _ => p.NodeEmptied E) h.nodes q

theorem walk_eq (a : Address) (ns : List Text) : tree.walk a ns = p.tree.walk a ns := by
  induction ns generalizing a with
  | nil => rfl
  | cons n ns ih =>
    rw [FileTree.walk, FileTree.walk]
    have hnode := h.node? a
    generalize p.tree.node? a = x at hnode
    generalize tree.node? a = y at hnode
    cases hnode with
    | none => rfl
    | @some m m' hm =>
      cases hm with
      | file => rfl
      | same =>
        cases m with
        | file bytes => rfl
        | directory r =>
          dsimp only
          rw [ih]

theorem find_eq (q : Path) : (∃ f, p.tree.find q = .error f ∧ tree.find q = .error f) ∨
    ∃ a n n', p.tree.find q = .ok (a, n) ∧ tree.find q = .ok (a, n') ∧ p.NodeEmptied E n n' := by
  rw [FileTree.find, FileTree.find, FileTree.locate, FileTree.locate, h.here]
  cases FileTree.soundLength q.toText with
  | error f => exact Or.inl ⟨f, rfl, rfl⟩
  | ok length =>
    dsimp only
    split
    · exact Or.inl ⟨_, rfl, rfl⟩
    · rw [h.walk_eq]
      cases p.tree.walk (q.start p.tree.here) q.names with
      | error f => exact Or.inl ⟨f, rfl, rfl⟩
      | ok a =>
        dsimp only
        have hnode := h.node? a
        generalize p.tree.node? a = x at hnode
        generalize tree.node? a = y at hnode
        cases hnode with
        | none => exact Or.inl ⟨_, rfl, rfl⟩
        | some hn => exact Or.inr ⟨a, _, _, rfl, rfl, hn⟩

theorem isFile_eq (q : Path) : tree.isFile q = p.tree.isFile q := by
  rw [FileTree.isFile, FileTree.isFile]
  rcases h.find_eq q with ⟨f, hf, hf'⟩ | ⟨a, n, n', hn, hn', he⟩
  · rw [hf, hf']
  · rw [hn, hn']
    cases he <;> rfl

theorem resolve_eq (prefixes : PrefixMap) (requested : Text) (source : Text) :
    Include.resolve prefixes tree requested source = Include.resolve prefixes p.tree requested source := by
  unfold Include.resolve
  dsimp only
  rw [h.here, h.isFile_eq]

theorem read_eq (q : Path) : (∃ f, p.tree.read q = .error f ∧ tree.read q = .error f) ∨
    ∃ bytes bytes' r, p.tree.read q = .ok bytes ∧ tree.read q = .ok bytes' ∧
      p.NodeEmptied E (.file bytes r) (.file bytes' r) := by
  rcases h.find_eq q with ⟨f, hf, hf'⟩ | ⟨a, n, n', hn, hn', he⟩
  · rw [FileTree.read, FileTree.read, hf, hf']
    exact Or.inl ⟨f, rfl, rfl⟩
  cases he with
  | same =>
    have hsame : tree.read q = p.tree.read q := by rw [FileTree.read, FileTree.read, hn, hn']
    rw [hsame]
    cases p.tree.read q with
    | error f => exact Or.inl ⟨f, rfl, rfl⟩
    | ok bytes => exact Or.inr ⟨bytes, bytes, {}, rfl, rfl, .same _⟩
  | @file _ _ r _ _ chosen hd hd' hc hl =>
    rw [FileTree.read, FileTree.read, hn, hn']
    dsimp only
    by_cases hr : r.read = true
    · rw [if_pos hr, if_pos hr]
      exact Or.inr ⟨_, _, r, rfl, rfl, .file chosen hd hd' hc hl⟩
    · rw [if_neg hr, if_neg hr]
      exact Or.inl ⟨_, rfl, rfl⟩

theorem readText_eq (q : Path) : ReadsAs E (p.readText q) (Project.readText { p with tree := tree } q) := by
  rw [readText, readText]
  dsimp only
  split
  · exact .fault _
  rcases h.read_eq q with ⟨f, hf, hf'⟩ | ⟨bytes, bytes', r, hb, hb', he⟩
  · rw [hf, hf']
    exact .fault _
  · rw [hb, hb']
    change ReadsAs E (p.decode bytes) (p.decode bytes')
    cases he with
    | same => exact .refl _
    | file chosen hd hd' hc hl =>
      rw [hd, hd']
      exact .text chosen hc hl

theorem accompanies {K : Failure → Prop} (hidle : ∀ raw, E raw → ∀ active (entering : Entering p active) tagged place g,
    Follows K (·.2) (p.passLine active entering tagged place raw g) (.ok g)) :
    p.Accompanies K E { p with tree := tree } where
  here := h.here
  resolve := fun requested source => h.resolve_eq _ requested source
  reads := fun q => h.readText_eq q
  expands := fun _ _ _ hx => hx
  fails := fun _ _ _ _ hx _ => hx
  idle := hidle

end TreeEmptied

end Project

def IsCode (raw : Text) : Prop := (Line.normalize raw).head? ≠ some (.char '#')

instance IsCode.decidable (raw : Text) : Decidable (IsCode raw) := inferInstanceAs (Decidable (_ ≠ _))

theorem IsCode.ofLine?_eq {raw : Text} (h : IsCode raw) : Directive.ofLine? (Line.normalize raw) = none :=
  Directive.ofLine?_eq_none_iff.2 h

theorem IsCode.idle {p : Project} {active : List Address} {entering : Entering p active} {tagged : Bool}
    {place : Location} {raw : Text} {g : Progress} (h : IsCode raw) :
    Follows (fun _ => False) (·.2) (p.passLine active entering tagged place raw g) (.ok g) := by
  unfold Project.passLine
  dsimp only
  rw [h.ofLine?_eq]
  dsimp only
  cases g.macros.expand p.options.limit (Line.normalize raw) with
  | ok u => exact .ok (u, g)
  | error f => exact .lost _ _ id

namespace Project

/-- A run that succeeds goes on to succeed when lines of code are left empty, in the script and in the files that it
includes: it collects the same, and writes the same lines but for those left empty. -/
theorem run_without_code (p : Project) (source : Text) (tagged : Bool) {tree : FileTree} {script script' t : Text}
    {g : Progress} {chosen : Nat → Bool} (htree : p.TreeEmptied IsCode tree)
    (hchosen : Chooses IsCode chosen (sourceLines script))
    (hlines : sourceLines script' = emptied chosen (sourceLines script))
    (h : p.run source tagged script = .ok (t, g)) :
    ∃ t', Project.run { p with tree := tree } source tagged script' = .ok (t', g) ∧
      Text.lines t' = emptied chosen (Text.lines t) := by
  have hp' : p.Accompanies (fun _ => False) IsCode { p with tree := tree } :=
    htree.accompanies fun raw hraw _ _ _ _ _ => hraw.idle
  have hrun' := (hp'.runLines source tagged hchosen).eq_ok (run_eq_ok_iff.1 h)
  rw [← hlines] at hrun'
  have ht' := lines_runLines hrun'
  refine ⟨Text.ofLines (emptied chosen (Text.lines t)), ?_, ht'⟩
  rw [run_eq_ok_iff, hrun', ht']

theorem run_without_code_nested :
    let file := fun text : String => [([[97]], Node.file (Utf8.encode text.toList))]
    let p : Project := { tree := ⟨file "#define A 1\nA B\n#define B A", []⟩ }
    let tree : FileTree := ⟨file "#define A 1\n\n#define B A", []⟩
    let source : Text := "main".toText
    let script := "x A\n#include 'a'\nA B\nB".toText
    let chosen := fun i => i == 0 || i == 2
    p.TreeEmptied IsCode tree ∧ Chooses IsCode chosen (sourceLines script) ∧
      ∃ t g t', p.run source false script = .ok (t, g) ∧ g.macros.names = ["A".toText, "B".toText] ∧
        Project.run { p with tree := tree } source false "\n#include 'a'\n\nB".toText = .ok (t', g) ∧
        Text.lines t = ["x A".toText, [], "1 1".toText, "1".toText] ∧
          Text.lines t' = emptied chosen (Text.lines t) := by
  intro file p tree source script chosen
  have htree : p.TreeEmptied IsCode tree := by
    refine ⟨rfl, .cons ⟨rfl, ?_⟩ .nil⟩
    have hd : p.decode (Utf8.encode "#define A 1\nA B\n#define B A".toList) =
        .ok "#define A 1\nA B\n#define B A".toText := by
      decide +kernel
    have hd' : p.decode (Utf8.encode "#define A 1\n\n#define B A".toList) =
        .ok "#define A 1\n\n#define B A".toText := by
      decide +kernel
    exact .file (fun i => i == 1) hd hd' (by decide +kernel) (by decide +kernel)
  have hchosen : Chooses IsCode chosen (sourceLines script) := by decide +kernel
  have hrun : (p.run source false script).map (fun r => (Text.lines r.1, r.2.macros.names)) =
      .ok (["x A".toText, [], "1 1".toText, "1".toText], ["A".toText, "B".toText]) := by
    decide +kernel
  obtain ⟨⟨t, g⟩, h, he⟩ := exists_of_map_eq_ok hrun
  obtain ⟨ht, hg⟩ := Prod.mk.inj he
  have hlines : sourceLines "\n#include 'a'\n\nB".toText = emptied chosen (sourceLines script) := by decide +kernel
  obtain ⟨t', h', ht'⟩ := run_without_code p source false htree hchosen hlines h
  exact ⟨htree, hchosen, t, g, t', h, hg, h', ht, ht'⟩

end Project

end ScriptMacros
