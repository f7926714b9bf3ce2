import ScriptMacros.Proofs.Run.OpenFiles
import ScriptMacros.Proofs.Run.Output

namespace ScriptMacros

section

variable {K : Failure → Prop} {α β α' β' : Type} {k : α → β} {x : Except Halt α} {y : Except Halt β}

inductive Follows (K : Failure → Prop) (k : α → β) : Except Halt α → Except Halt β → Prop
  | ok (a : α) : Follows K k (.ok a) (.ok (k a))
  | error (halt : Halt) : Follows K k (.error halt) (.error halt)
  | lost (halt : Halt) (y : Except Halt β) : ¬K halt.failure → Follows K k (.error halt) y

theorem Follows.eq_ok {a : α} (h : Follows K k x y) (hx : x = .ok a) : y = .ok (k a) := by
  cases h with
  | ok a' =>
    cases hx
    rfl
  | error => contradiction
  | lost => contradiction

theorem Follows.eq_error {halt : Halt} (h : Follows K k x y) (hx : x = .error halt) (hK : K halt.failure) :
    y = .error halt := by
  cases h with
  | ok => contradiction
  | error halt' =>
    cases hx
    rfl
  | lost halt' _ hn =>
    cases hx
    contradiction

theorem Follows.map_right (h : Follows K k x y) (f : β → β') : Follows K (fun a => f (k a)) x (y.map f) := by
  cases h with
  | ok a => exact .ok a
  | error halt => exact .error halt
  | lost halt _ hn => exact .lost halt _ hn

theorem Follows.map {k' : α' → β'} {f : α → α'} {f' : β → β'} (h : Follows K k x y)
    (hk : ∀ a, f' (k a) = k' (f a)) : Follows K k' (x.map f) (y.map f') := by
  cases h with
  | ok a =>
    change Follows K k' (.ok (f a)) (.ok (f' (k a)))
    rw [hk]
    exact .ok (f a)
  | error halt => exact .error halt
  | lost halt _ hn => exact .lost halt _ hn

theorem Follows.bind {k' : α' → β'} {f : α → Except Halt α'} {f' : β → Except Halt β'} (h : Follows K k x y)
    (hf : ∀ a, x = .ok a → Follows K k' (f a) (f' (k a))) : Follows K k' (x.bind f) (y.bind f') := by
  cases h with
  | ok a => exact hf a rfl
  | error halt => exact .error halt
  | lost halt _ hn => exact .lost halt _ hn

end

def emptied (chosen : Nat → Bool) (lines : List Text) : List Text :=
  lines.mapIdx fun i l => if chosen i then [] else l

def Chooses (E : Text → Prop) (chosen : Nat → Bool) (lines : List Text) : Prop :=
  ∀ i raw, lines[i]? = some raw → chosen i = true → E raw

section

variable {E : Text → Prop} {chosen : Nat → Bool} {raw : Text} {rest : List Text}

theorem emptied_cons (chosen : Nat → Bool) (raw : Text) (rest : List Text) :
    emptied chosen (raw :: rest) = (if chosen 0 then [] else raw) :: emptied (fun i => chosen (i + 1)) rest :=
  List.mapIdx_cons

theorem emptied_none (lines : List Text) : emptied (fun _ => false) lines = lines :=
  List.mapIdx_eq_iff.2 fun i => by simp

theorem Chooses.head (h : Chooses E chosen (raw :: rest)) (hc : chosen 0 = true) : E raw := h 0 raw rfl hc

theorem Chooses.tail (h : Chooses E chosen (raw :: rest)) : Chooses E (fun i => chosen (i + 1)) rest :=
  fun i l hl hc => h (i + 1) l hl hc

instance Chooses.decidable [DecidablePred E] (chosen : Nat → Bool) (lines : List Text) :
    Decidable (Chooses E chosen lines) :=
  decidable_of_iff (∀ i : Fin lines.length, chosen i = true → E lines[i])
    ⟨fun h i raw hi hc => by
      obtain ⟨hlt, rfl⟩ := List.getElem?_eq_some_iff.1 hi
      exact h ⟨i, hlt⟩ hc, fun h i hc => h i _ (List.getElem?_eq_getElem i.isLt) hc⟩

theorem Chooses.none (lines : List Text) : Chooses E (fun _ => false) lines := fun _ _ _ hc => nomatch hc

end

theorem Expansion.expand_of_none {ms : List Macro} {line : Text} (h : firstInvocation? ms line = none)
    (limit : Limit) : expand ms limit line = .ok line := by
  rw [expand]
  cases limit.allowed? with
  | none => rw [h]
  | some n =>
    dsimp only
    rw [expandWithin, h]

theorem Macro.invocation?_nil {m : Macro} (h : m.name ≠ []) : m.invocation? [] = none := by
  rw [invocation?_eq, Invocation.first?_nil]
  apply invocationAt?_eq_none
  rwa [List.isPrefixOf_iff_prefix, List.prefix_nil]

def Named (g : Progress) : Prop := [] ∉ g.macros.names

theorem Named.stable : Project.Stable Named where
  define := by
    intro g raw d e place tagged hn hr hd he hg
    obtain ⟨head, rest, -, -, hname, -⟩ := Declaration.parse_eq_ok he
    rw [Named, Progress.define, MacroTable.names_define]
    change [] ∉ if e.name ∈ g.macros.names then g.macros.names else g.macros.names ++ [e.name]
    split
    · exact hg
    · intro hm
      rcases List.mem_append.1 hm with hm | hm
      · exact hg hm
      · exact hname (List.mem_singleton.1 hm).symm
  record := fun _ hg => hg

theorem Named.expand_nil {g : Progress} (hg : Named g) (limit : Limit) : g.macros.expand limit [] = .ok [] := by
  apply Expansion.expand_of_none
  rw [Expansion.firstInvocation?, List.findSome?_eq_none_iff]
  intro m hm
  have hname : m.name ≠ [] := by
    intro he
    exact hg (List.mem_map.2 ⟨m, mem_longestFirst.1 hm, he⟩)
  rw [Macro.invocation?_nil hname, Option.map_none]

namespace Project

variable {p p' : Project} {K : Failure → Prop} {E : Text → Prop} {active : List Address} {tagged : Bool}
  {place : Location} {g : Progress} {chosen : Nat → Bool}

inductive ReadsAs (E : Text → Prop) : Except ReadFault Text → Except ReadFault Text → Prop
  | fault (f : ReadFault) : ReadsAs E (.error f) (.error f)
  | text {t t' : Text} (chosen : Nat → Bool) : Chooses E chosen (sourceLines t) →
      sourceLines t' = emptied chosen (sourceLines t) → ReadsAs E (.ok t) (.ok t')

theorem ReadsAs.refl (x : Except ReadFault Text) : ReadsAs E x x := by
  cases x with
  | error f => exact .fault f
  | ok t => exact .text _ (Chooses.none _) (emptied_none _).symm

/-- What one project has to have in common with another one to follow it. -/
structure Accompanies (K : Failure → Prop) (E : Text → Prop) (p p' : Project) : Prop where
  here : p'.tree.here = p.tree.here
  resolve : ∀ requested source, Include.resolve p'.options.prefixes p'.tree requested source =
    Include.resolve p.options.prefixes p.tree requested source
  reads : ∀ q, ReadsAs E (p.readText q) (p'.readText q)
  expands : ∀ (t : MacroTable) line u, t.expand p.options.limit line = .ok u →
    t.expand p'.options.limit line = .ok u
  fails : ∀ (t : MacroTable) line f place, t.expand p.options.limit line = .error f →
    K (.expansion f place line) → t.expand p'.options.limit line = .error f
  idle : ∀ raw, E raw → ∀ active (entering : Entering p active) tagged place g,
    Follows K (·.2) (p.passLine active entering tagged place raw g) (.ok g)

def NestedFollows (K : Failure → Prop) (E : Text → Prop) (p p' : Project) (active : List Address) : Prop :=
  ∀ (i : Include) (t t' : Text) (a : Address) (ha : a ∉ active) (hf : a ∈ p.tree.addresses)
    (hf' : a ∈ p'.tree.addresses) (chosen : Nat → Bool) (g : Progress), Chooses E chosen (sourceLines t) →
    sourceLines t' = emptied chosen (sourceLines t) → Named g →
    Follows K (fun r => (emptied chosen r.1, r.2)) (p.nested active i t a ha hf g) (p'.nested active i t' a ha hf' g)

namespace Accompanies

variable (h : p.Accompanies K E p')
include h

theorem enter (hn : NestedFollows K E p p' active) (i : Include) (hg : Named g) :
    Follows K id (p.enter active (p.nested active) place i g) (p'.enter active (p'.nested active) place i g) := by
  rw [Project.enter, Project.enter]
  cases hfound : i.found with
  | false =>
    rw [entry_of_not_found hfound, entry_of_not_found hfound]
    exact .ok g
  | true =>
    by_cases ha : i.path.address p.tree.here ∈ active
    · rw [entry_of_mem hfound ha, entry_of_mem hfound (h.here.symm ▸ ha), h.here]
      exact .error _
    · have hreads := h.reads i.path
      generalize hread : p.readText i.path = x at hreads
      generalize hread' : p'.readText i.path = y at hreads
      cases hreads with
      | fault f =>
        rw [entry_of_fault hfound hread ha, entry_of_fault hfound hread' (h.here.symm ▸ ha)]
        exact .error _
      | @text t t' chosen hc hl =>
        obtain ⟨hf, he⟩ := entry_of_read hfound hread ha
        have hentry' := entry_of_read hfound hread' (h.here.symm ▸ ha)
        simp only [h.here] at hentry'
        obtain ⟨hf', he'⟩ := hentry'
        rw [he, he']
        exact Follows.map (hn i t t' _ ha hf hf' chosen g hc hl hg) fun _ => rfl

theorem applyDirective (hn : NestedFollows K E p p' active) (d : Directive) (hg : Named g) :
    Follows K id (p.applyDirective active (p.nested active) tagged place d g)
      (p'.applyDirective active (p'.nested active) tagged place d g) := by
  rw [applyDirective_eq, applyDirective_eq]
  cases d.kind with
  | define =>
    dsimp only
    cases Declaration.parse d.value with
    | error f => exact .error _
    | ok e => exact .ok _
  | inclusion =>
    dsimp only
    cases Directive.fileName d.value with
    | error f => exact .error _
    | ok requested =>
      dsimp only
      rw [h.resolve]
      cases Include.resolve p.options.prefixes p.tree requested place.file with
      | error e => exact .error _
      | ok i => exact h.enter hn i (Named.stable.record i hg)
  | condition => exact .ok g
  | unknown => exact .ok g

theorem passLine_same (hn : NestedFollows K E p p' active) (raw : Text) (hg : Named g) :
    Follows K id (p.passLine active (p.nested active) tagged place raw g)
      (p'.passLine active (p'.nested active) tagged place raw g) := by
  unfold Project.passLine
  dsimp only
  cases Directive.ofLine? (Line.normalize raw) with
  | some d => exact (h.applyDirective hn d hg).map fun _ => rfl
  | none =>
    dsimp only
    cases hx : g.macros.expand p.options.limit (Line.normalize raw) with
    | ok u =>
      rw [h.expands _ _ _ hx]
      exact .ok (u, g)
    | error f =>
      by_cases hK : K (.expansion f place (Line.normalize raw))
      · rw [h.fails _ _ _ place hx hK]
        exact .error _
      · exact .lost _ _ hK

omit h in
theorem passLine_nil (entering : Entering p active) (hg : Named g) :
    p.passLine active entering tagged place [] g = .ok ([], g) := by
  have hline : Line.normalize [] = [] := rfl
  have hcode : Directive.ofLine? [] = none := rfl
  rw [Project.passLine]
  simp only [hline, hcode, hg.expand_nil]

theorem passLine (hn : NestedFollows K E p p' active) {raw : Text} {empty : Bool} (he : empty = true → E raw)
    (hg : Named g) :
    Follows K (fun r => (if empty then [] else r.1, r.2)) (p.passLine active (p.nested active) tagged place raw g)
      (p'.passLine active (p'.nested active) tagged place (if empty then [] else raw) g) := by
  cases empty with
  | false => exact h.passLine_same hn raw hg
  | true =>
    have hidle := h.idle raw (he rfl) active (p.nested active) tagged place g
    rw [if_pos rfl, passLine_nil _ hg]
    exact hidle.map_right fun g => ([], g)

theorem passLines_of_nested (hn : NestedFollows K E p p' active) {source : Text} {n : Nat} {lines : List Text}
    (hc : Chooses E chosen lines) (hl : ∀ raw ∈ lines, .char '\n' ∉ raw ∧ .char '\r' ∉ raw) (hg : Named g) :
    Follows K (fun r => (emptied chosen r.1, r.2)) (p.passLines active (p.nested active) source tagged n lines g)
      (p'.passLines active (p'.nested active) source tagged n (emptied chosen lines) g) := by
  induction lines generalizing n g chosen with
  | nil => exact .ok ([], g)
  | cons raw rest ih =>
    rw [emptied_cons, passLines_cons, passLines_cons]
    apply (h.passLine hn hc.head hg).bind
    intro r hr
    obtain ⟨hraw, hrest⟩ := List.forall_mem_cons.1 hl
    have hg' : Named r.2 := (Named.stable.passLine Named.stable.nested hraw.1 hraw.2 hg hr).1
    exact (ih hc.tail hrest hg').map fun q => by rw [emptied_cons]

theorem passLines {source : Text} {n : Nat} {lines : List Text} (hc : Chooses E chosen lines)
    (hl : ∀ raw ∈ lines, .char '\n' ∉ raw ∧ .char '\r' ∉ raw) (hg : Named g) :
    Follows K (fun r => (emptied chosen r.1, r.2)) (p.passLines active (p.nested active) source tagged n lines g)
      (p'.passLines active (p'.nested active) source tagged n (emptied chosen lines) g) := by
  induction hk : p.tree.remaining active using Nat.strongRecOn
    generalizing active source tagged n lines g chosen with
  | _ k ih =>
    refine h.passLines_of_nested ?_ hc hl hg
    intro i t t' a ha hf hf' chosen g hc ht' hg
    have hlt : p.tree.remaining (active ++ [a]) < k := hk ▸ FileTree.remaining_lt ha hf
    rw [nested, nested, pass_eq, pass_eq, ht']
    exact ih _ hlt hc (fun raw hraw => sourceLines_clean hraw) hg rfl

theorem runLines (source : Text) (tagged : Bool) {script : Text} (hc : Chooses E chosen (sourceLines script)) :
    Follows K (fun r => (emptied chosen r.1, r.2)) (p.runLines source tagged (sourceLines script))
      (p'.runLines source tagged (emptied chosen (sourceLines script))) := by
  cases hs : FileTree.askSource source with
  | error f =>
    rw [Project.runLines, Project.runLines, hs]
    exact .error _
  | ok k =>
    rw [runLines_eq_passLines hs, runLines_eq_passLines hs, h.here]
    exact h.passLines hc (fun raw hraw => sourceLines_clean hraw) (by simp [Named, MacroTable.names, MacroTable.empty])

end Accompanies

end Project

end ScriptMacros
