import ScriptMacros.Proofs.Run.DepthFirst

namespace ScriptMacros

namespace Project

variable {p : Project} {active : List Address} {source : Text} {tagged : Bool} {script raw : Text}
  {g g' g₁ : Progress} {halt : Halt} {f : OpenFile} {n : Nat} {rest : List Text} {l : ScriptLine}
  {lines later : List ScriptLine}

def executedFrom (p : Project) : Progress → List ScriptLine → List ScriptLine
  | _, [] => []
  | g, l :: lines =>
    match p.act g l with
    | .error _ => [l]
    | .ok g' => l :: p.executedFrom g' lines

def executed (p : Project) (source : Text) (tagged : Bool) (script : Text) : List ScriptLine :=
  match FileTree.askSource source with
  | .error _ => []
  | .ok _ => p.executedFrom {} (p.scriptLines source tagged script)

def records (p : Project) (lines : List ScriptLine) : List Include :=
  lines.filterMap fun l => p.asked? l.file.source l.raw

theorem records_cons (l : ScriptLine) (lines : List ScriptLine) :
    p.records (l :: lines) = (p.asked? l.file.source l.raw).toList ++ p.records lines := by
  rw [records, List.filterMap_cons]
  cases p.asked? l.file.source l.raw <;> rfl

theorem records_append (before after : List ScriptLine) :
    p.records (before ++ after) = p.records before ++ p.records after :=
  List.filterMap_append

theorem foldlM_act_cons (g : Progress) (l : ScriptLine) (lines : List ScriptLine) :
    (l :: lines).foldlM p.act g = (p.act g l).bind fun g' => lines.foldlM p.act g' :=
  List.foldlM_cons

theorem executedFrom_append (h : lines.foldlM p.act g = .ok g') (later : List ScriptLine) :
    p.executedFrom g (lines ++ later) = lines ++ p.executedFrom g' later := by
  induction lines generalizing g with
  | nil =>
    cases h
    rfl
  | cons l lines ih =>
    rw [foldlM_act_cons] at h
    rw [List.cons_append, executedFrom]
    cases hl : p.act g l with
    | error halt =>
      rw [hl] at h
      contradiction
    | ok g₁ =>
      rw [hl] at h
      exact congrArg (l :: ·) (ih h)

theorem executedFrom_of_ok (h : lines.foldlM p.act g = .ok g') : p.executedFrom g lines = lines := by
  simpa [executedFrom] using executedFrom_append h []

theorem executedFrom_append_of_error (h : lines.foldlM p.act g = .error halt) (later : List ScriptLine) :
    p.executedFrom g (lines ++ later) = p.executedFrom g lines := by
  induction lines generalizing g with
  | nil => contradiction
  | cons l lines ih =>
    rw [foldlM_act_cons] at h
    rw [List.cons_append, executedFrom, executedFrom]
    cases hl : p.act g l with
    | error halt => rfl
    | ok g₁ =>
      rw [hl] at h
      exact congrArg (l :: ·) (ih h)

theorem isPrefix_executedFrom (g : Progress) (lines : List ScriptLine) : p.executedFrom g lines <+: lines := by
  induction lines generalizing g with
  | nil => exact List.prefix_rfl
  | cons l lines ih =>
    rw [executedFrom]
    split
    · exact ⟨lines, rfl⟩
    · exact (List.prefix_cons_inj l).2 (ih _)

theorem executedFrom_singleton (g : Progress) (l : ScriptLine) : p.executedFrom g [l] = [l] := by
  rw [executedFrom]
  split <;> rfl

theorem executedFrom_cons (h : p.act g l = .ok g₁) (lines : List ScriptLine) :
    p.executedFrom g (l :: lines) = l :: p.executedFrom g₁ lines := by
  rw [executedFrom, h]

theorem executedFrom_subset_append (g : Progress) (lines later : List ScriptLine) :
    p.executedFrom g lines ⊆ p.executedFrom g (lines ++ later) := by
  cases h : lines.foldlM p.act g with
  | error halt =>
    rw [executedFrom_append_of_error h]
    exact List.Subset.refl _
  | ok g' =>
    rw [executedFrom_of_ok h, executedFrom_append h]
    exact List.subset_append_left _ _

theorem executed_subset : p.executed source tagged script ⊆ p.scriptLines source tagged script := by
  rw [executed]
  split
  · exact List.nil_subset _
  · exact (isPrefix_executedFrom _ _).subset

theorem depthFirst_of_forall_none (h : ∀ raw ∈ rest, p.target? active f.source raw = none) :
    p.depthFirst active f n rest = rest.mapIdx fun k raw => ⟨f, n + k, raw⟩ := by
  induction rest generalizing n with
  | nil => rw [depthFirst, List.mapIdx_nil]
  | cons raw rest ih =>
    obtain ⟨hraw, hrest⟩ := List.forall_mem_cons.1 h
    rw [depthFirst, hraw, List.mapIdx_cons]
    dsimp only
    rw [ih hrest]
    simp only [Nat.add_zero, Nat.add_assoc, Nat.add_comm 1]

theorem depthFirst_of_some {e : Target p active} (h : p.target? active f.source raw = some e) :
    p.depthFirst active f n (raw :: rest) =
      ⟨f, n, raw⟩ :: p.depthFirst (active ++ [e.address]) (f.nested e.inclusion) 1 (sourceLines e.text) ++
        p.depthFirst active f (n + 1) rest := by
  rw [depthFirst, h]

theorem act_of_asks {i : Include} (h : p.Asks l.file.source l.raw i) :
    p.act g l = .ok (g.record i) ∨ ∃ halt, p.act g l = .error halt ∧ halt.progress = g.record i := by
  have hline : p.Asks l.place.file l.raw i := h
  rw [act, hline.passLine, map_map]
  cases he : p.enter (l.file.active p.tree.here) skip l.place i (g.record i) with
  | error halt => exact Or.inr ⟨halt, rfl, (enter_skip_eq_error he).2.1⟩
  | ok g' =>
    left
    rcases enter_eq_ok he with ⟨-, rfl⟩ | ⟨t, a, ha, hf, out, -, hskip⟩
    · rfl
    · cases hskip
      rfl

theorem act_of_not_asks (h : ∀ i, ¬p.Asks l.file.source l.raw i) :
    (∃ g', p.act g l = .ok g' ∧ g'.includes = g.includes) ∨
      ∃ halt, p.act g l = .error halt ∧ halt.progress.includes = g.includes := by
  rw [act]
  have hline :
      (∃ r, ∀ entering, p.passLine (l.file.active p.tree.here) entering l.file.tagged l.place l.raw g = .ok r) ∨
      ∃ failure, ∀ entering, p.passLine (l.file.active p.tree.here) entering l.file.tagged l.place l.raw g =
        .error ⟨failure, l.file.active p.tree.here, g⟩ :=
    passLine_of_not_asks h
  rcases hline with ⟨⟨t, g'⟩, hr⟩ | ⟨failure, hr⟩
  · left
    refine ⟨g', by rw [hr]; rfl, ?_⟩
    rcases passLine_eq_ok (hr skip) with ⟨d, hd, -, ha⟩ | ⟨-, rfl, -⟩
    · rcases applyDirective_eq_ok ha with ⟨-, e, -, rfl⟩ | ⟨hk, requested, i, hrequested, hi, -⟩ | ⟨-, rfl⟩
      · rfl
      · exact absurd ⟨d, requested, hd, hk, hrequested, hi⟩ (h i)
      · rfl
    · rfl
  · exact Or.inr ⟨_, by rw [hr]; rfl, rfl⟩

theorem act_includes (p : Project) (g : Progress) (l : ScriptLine) :
    (∃ g', p.act g l = .ok g' ∧ g'.includes = g.includes ++ p.records [l]) ∨
      ∃ halt, p.act g l = .error halt ∧ halt.progress.includes = g.includes ++ p.records [l] := by
  rw [records_cons, records, List.filterMap_nil, List.append_nil]
  cases hi : p.asked? l.file.source l.raw with
  | some i =>
    rcases act_of_asks (g := g) (asked?_eq_some_iff.1 hi) with h | ⟨halt, h, hg⟩
    · exact Or.inl ⟨_, h, rfl⟩
    · exact Or.inr ⟨halt, h, hg ▸ rfl⟩
  | none =>
    have hnone : ∀ i, ¬p.Asks l.file.source l.raw i := by
      intro i ha
      cases hi.symm.trans (asked?_eq_some_iff.2 ha)
    rw [Option.toList_none, List.append_nil]
    exact act_of_not_asks hnone

theorem includes_eq_records (g : Progress) (lines : List ScriptLine) :
    (∃ g', lines.foldlM p.act g = .ok g' ∧ g'.includes = g.includes ++ p.records (p.executedFrom g lines)) ∨
      ∃ halt, lines.foldlM p.act g = .error halt ∧
        halt.progress.includes = g.includes ++ p.records (p.executedFrom g lines) := by
  induction lines generalizing g with
  | nil => exact Or.inl ⟨g, rfl, (List.append_nil _).symm⟩
  | cons l lines ih =>
    rw [foldlM_act_cons, executedFrom]
    rcases p.act_includes g l with ⟨g₁, hl, hg₁⟩ | ⟨halt, hl, hg⟩
    · have hrecords : ∀ after, g.includes ++ p.records (l :: after) = g₁.includes ++ p.records after := by
        intro after
        rw [hg₁, ← List.singleton_append, records_append, List.append_assoc]
      simp only [hl, hrecords]
      exact ih g₁
    · simp only [hl]
      exact Or.inr ⟨halt, rfl, hg⟩

theorem executed_of_ok (hh : p.tree.here.Canonical) {t : Text} (h : p.run source tagged script = .ok (t, g)) :
    p.executed source tagged script = p.scriptLines source tagged script := by
  have hrun := run_eq_ok_iff.1 h
  have hk := askSource_of_runLines hrun
  have hlines := p.runLines_eq_foldlM hh hk tagged script
  rw [hrun] at hlines
  rw [executed, hk]
  exact executedFrom_of_ok hlines.symm

theorem includes_executed (hh : p.tree.here.Canonical) :
    (Report.ofRun (p.run source tagged script)).progress.includes =
      p.records (p.executed source tagged script) := by
  rw [executed]
  cases hs : FileTree.askSource source with
  | error f =>
    have herror : p.run source tagged script = .error ⟨.source f source, [], {}⟩ := by
      rw [run_eq_error_iff, runLines, hs]
    rw [herror]
    rfl
  | ok k =>
    have hlines := p.runLines_eq_foldlM hh hs tagged script
    rcases includes_eq_records (p := p) {} (p.scriptLines source tagged script) with ⟨g, hg, hi⟩ | ⟨halt, hg, hi⟩
    · rw [hg] at hlines
      obtain ⟨⟨out, g'⟩, hrun, rfl⟩ := exists_of_map_eq_ok hlines
      rw [run, hrun]
      exact hi
    · rw [hg] at hlines
      rw [run_eq_error_iff.2 (map_eq_error_iff.1 hlines)]
      exact hi

end Project

end ScriptMacros
