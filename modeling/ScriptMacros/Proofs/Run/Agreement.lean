import ScriptMacros.Proofs.Run.Machine
import ScriptMacros.Proofs.Run.Passes

namespace ScriptMacros.Project

variable {p : Project} {s s' : RunState}

def Comes (p : Project) (s : RunState) : Except Halt RunState → Prop
  | .ok s' => p.Reaches s s'
  | .error halt => ∃ s', p.Reaches s s' ∧ s'.frames ≠ [] ∧ p.step s' = .error halt

theorem Comes.prepend {r : Except Halt RunState} (h : p.Reaches s s') (hr : p.Comes s' r) : p.Comes s r := by
  cases r with
  | ok t => exact h.trans hr
  | error halt =>
    obtain ⟨t, ht, he⟩ := hr
    exact ⟨t, h.trans ht, he⟩

theorem Comes.step {r : Except Halt RunState} (hne : s.frames ≠ []) (h : p.step s = r) : p.Comes s r := by
  cases r with
  | ok t => exact Relation.ReflTransGen.single ⟨hne, h⟩
  | error halt => exact ⟨s, .refl, hne, h⟩

theorem Comes.bind {α : Type} {x : Except Halt α} {k : α → RunState} {r : α → Except Halt RunState}
    (h : p.Comes s (x.map k)) (hk : ∀ a, x = .ok a → p.Comes (k a) (r a)) : p.Comes s (x.bind r) := by
  cases x with
  | error halt => exact h
  | ok a => exact Comes.prepend h (hk a rfl)

theorem Comes.next {r : Except Halt RunState} (hne : s.frames ≠ []) (h : p.step s = .ok s') (hr : p.Comes s' r) :
    p.Comes s r := hr.prepend (.single ⟨hne, h⟩)

def settle (s : RunState) (f : Frame) (outer : List Frame) (raw : Text) :
    Except Expansion.Fault Text → Except Halt RunState
  | .ok t => .ok { s with frames := f.finish raw t f.left :: outer, rewriting := none }
  | .error e => .error ⟨.expansion e f.place (Line.normalize raw), s.stack, s.progress⟩

section

variable {f : Frame} {outer : List Frame} {raw line : Text} {count : Nat}

theorem step_of_none (hf : s.frames = f :: outer) (hw : s.rewriting = some ⟨raw, line, count⟩)
    (h : Expansion.firstInvocation? s.progress.macros.byLength line = none) :
    p.step s = settle s f outer raw (.ok line) := by
  rw [step_eq]
  simp only [hf, stepInside, stepRewrite]
  simp only [hw, h]
  rfl

theorem step_of_same (hf : s.frames = f :: outer) (hw : s.rewriting = some ⟨raw, line, count⟩) {m : Macro}
    {i : Invocation} (h : Expansion.firstInvocation? s.progress.macros.byLength line = some (m, i))
    (hi : i.result line = line) :
    p.step s = settle s f outer raw (.error (.recursion m.name (count + 1))) := by
  rw [step_eq]
  simp only [hf, stepInside, stepRewrite]
  simp only [hw, h, hi, if_true]
  rfl

theorem step_of_differ (hf : s.frames = f :: outer) (hw : s.rewriting = some ⟨raw, line, count⟩) {m : Macro}
    {i : Invocation} (h : Expansion.firstInvocation? s.progress.macros.byLength line = some (m, i))
    (hi : i.result line ≠ line) :
    p.step s =
      match p.options.limit.allowed? with
      | none => settle s f outer raw (.error .noLimit)
      | some n =>
        if n < count + 1 then settle s f outer raw (.error (.recursion m.name (count + 1)))
        else .ok { s with rewriting := some ⟨raw, i.result line, count + 1⟩ } := by
  rw [step_eq]
  simp only [hf, stepInside, stepRewrite]
  simp only [hw, h, if_neg hi]
  rfl

end

theorem comes_expandWithin {ms : List Macro} (hm : s.progress.macros.byLength = ms) {left count : Nat}
    (hlimit : p.options.limit.allowed? = some (count + left)) {f : Frame} {outer : List Frame} {raw line : Text}
    (hf : s.frames = f :: outer) (hw : s.rewriting = some ⟨raw, line, count⟩) :
    p.Comes s (settle s f outer raw (Expansion.expandWithin ms left count line)) := by
  have hne : s.frames ≠ [] := by simp [hf]
  fun_induction Expansion.expandWithin ms left count line generalizing s with
  | case1 _ count line h => exact .step hne (step_of_none hf hw (hm ▸ h))
  | case2 _ count line m i h hi =>
    exact .step hne (step_of_same hf hw (hm ▸ h) ((Expansion.result_eq_self_iff h).2 hi))
  | case3 count line m i h hi =>
    apply Comes.step hne
    rw [step_of_differ hf hw (hm ▸ h) (fun he => hi ((Expansion.result_eq_self_iff h).1 he)), hlimit]
    simp
  | case4 count line m i h hi left ih =>
    have hstep : p.step s = .ok { s with rewriting := some ⟨raw, i.result line, count + 1⟩ } := by
      rw [step_of_differ hf hw (hm ▸ h) (fun he => hi ((Expansion.result_eq_self_iff h).1 he)), hlimit]
      simp
    refine .next hne hstep (ih hm ?_ hf rfl hne)
    rw [hlimit]
    congr 1
    omega

theorem comes_expand {f : Frame} {outer : List Frame} {raw : Text} (hf : s.frames = f :: outer)
    (hw : s.rewriting = some ⟨raw, Line.normalize raw, 0⟩) :
    p.Comes s (settle s f outer raw (s.progress.macros.expand p.options.limit (Line.normalize raw))) := by
  have hne : s.frames ≠ [] := by simp [hf]
  rw [MacroTable.expand, Expansion.expand]
  cases hl : p.options.limit.allowed? with
  | some n => exact comes_expandWithin rfl (by rw [hl, Nat.zero_add]) hf hw
  | none =>
    cases h : Expansion.firstInvocation? s.progress.macros.byLength (Line.normalize raw) with
    | none => exact .step hne (step_of_none hf hw h)
    | some q =>
      obtain ⟨m, i⟩ := q
      dsimp only
      by_cases hi : i.replacement = i.written
      · rw [if_pos hi]
        exact .step hne (step_of_same hf hw h ((Expansion.result_eq_self_iff h).2 hi))
      · rw [if_neg hi]
        apply Comes.step hne
        rw [step_of_differ hf hw h (fun he => hi ((Expansion.result_eq_self_iff h).1 he)), hl]

section

variable {source : Text} {tagged : Bool} {done : List (Text × Text)} {outer : List Frame} {g : Progress}
  {output : List Text} {active : List Address}

theorem comes_directive {raw : Text} {rest : List Text} {d : Directive}
    (hd : Directive.ofLine? (Line.normalize raw) = some d)
    (hnested : ∀ i t a ha hf g f outer, p.Comes
      ⟨active ++ [a], ⟨i.path.toText, true, [], sourceLines t⟩ :: f :: outer, none, g, output⟩
      ((p.nested active i t a ha hf g).map fun r => ⟨active, f :: outer, none, r.2, output⟩)) :
    p.Comes ⟨active, ⟨source, tagged, done, raw :: rest⟩ :: outer, none, g, output⟩
      ((p.applyDirective active (p.nested active) tagged ⟨source, (done.length + 1 : Nat), 1⟩ d g).map fun g =>
        ⟨active, ⟨source, tagged, (raw, []) :: done, rest⟩ :: outer, none, g, output⟩) := by
  have hne : (⟨active, ⟨source, tagged, done, raw :: rest⟩ :: outer, none, g, output⟩ : RunState).frames ≠ [] := by
    simp
  have hstep : p.step ⟨active, ⟨source, tagged, done, raw :: rest⟩ :: outer, none, g, output⟩ =
      p.stepDirective ⟨active, ⟨source, tagged, (raw, []) :: done, rest⟩ :: outer, none, g, output⟩ tagged
        ⟨source, (done.length + 1 : Nat), 1⟩ d := by
    rw [step_eq]
    dsimp only
    rw [stepInside]
    simp only [hd]
    rfl
  rw [applyDirective_eq]
  rw [stepDirective_eq] at hstep
  cases hk : d.kind with
  | define =>
    simp only [hk] at hstep ⊢
    cases he : Declaration.parse d.value with
    | error f => exact .step hne (by rw [hstep, he]; rfl)
    | ok e => exact .step hne (by rw [hstep, he]; rfl)
  | inclusion =>
    simp only [hk] at hstep ⊢
    cases hr : Directive.fileName d.value with
    | error f => exact .step hne (by rw [hstep, hr]; rfl)
    | ok requested =>
      rw [hr] at hstep
      dsimp only at hstep ⊢
      cases hi : Include.resolve p.options.prefixes p.tree requested source with
      | error e => exact .step hne (by rw [hstep, hi]; rfl)
      | ok i =>
        rw [hi] at hstep
        unfold stepEnter at hstep
        simp only [enter]
        dsimp only at hstep ⊢
        cases he : p.entry active i with
        | absent => exact .step hne (by rw [hstep, he]; rfl)
        | circular a => exact .step hne (by rw [hstep, he]; rfl)
        | unusable f => exact .step hne (by rw [hstep, he]; rfl)
        | text t a ha hf =>
          apply Comes.next hne (by rw [hstep, he])
          dsimp only
          rw [map_map]
          exact hnested i t a ha hf (g.record i) ⟨source, tagged, (raw, []) :: done, rest⟩ outer
  | condition =>
    simp only [hk] at hstep ⊢
    exact .step hne hstep
  | unknown =>
    simp only [hk] at hstep ⊢
    exact .step hne hstep

theorem comes_passLine {raw : Text} {rest : List Text}
    (hnested : ∀ i t a ha hf g f outer, p.Comes
      ⟨active ++ [a], ⟨i.path.toText, true, [], sourceLines t⟩ :: f :: outer, none, g, output⟩
      ((p.nested active i t a ha hf g).map fun r => ⟨active, f :: outer, none, r.2, output⟩)) :
    p.Comes ⟨active, ⟨source, tagged, done, raw :: rest⟩ :: outer, none, g, output⟩
      ((p.passLine active (p.nested active) tagged ⟨source, (done.length + 1 : Nat), 1⟩ raw g).map fun r =>
        ⟨active, ⟨source, tagged, (raw, r.1) :: done, rest⟩ :: outer, none, r.2, output⟩) := by
  unfold passLine
  dsimp only
  cases hd : Directive.ofLine? (Line.normalize raw) with
  | some d =>
    dsimp only
    rw [map_map]
    exact comes_directive hd hnested
  | none =>
    have hstep : p.step ⟨active, ⟨source, tagged, done, raw :: rest⟩ :: outer, none, g, output⟩ =
        .ok ⟨active, ⟨source, tagged, done, rest⟩ :: outer, some ⟨raw, Line.normalize raw, 0⟩, g, output⟩ := by
      rw [step_eq]
      dsimp only
      rw [stepInside]
      simp only [hd]
    apply Comes.next (by simp) hstep
    have hc : p.Comes ⟨active, ⟨source, tagged, done, rest⟩ :: outer, some ⟨raw, Line.normalize raw, 0⟩, g, output⟩ _ :=
      comes_expand rfl rfl
    dsimp only at hc ⊢
    cases hx : g.macros.expand p.options.limit (Line.normalize raw) with
    | error e =>
      rw [hx] at hc
      exact hc
    | ok t =>
      rw [hx] at hc
      exact hc

theorem comes_passLines
    (hnested : ∀ i t a ha hf g f outer, p.Comes
      ⟨active ++ [a], ⟨i.path.toText, true, [], sourceLines t⟩ :: f :: outer, none, g, output⟩
      ((p.nested active i t a ha hf g).map fun r => ⟨active, f :: outer, none, r.2, output⟩))
    (lines : List Text) :
    p.Comes ⟨active, ⟨source, tagged, done, lines⟩ :: outer, none, g, output⟩
      ((p.passLines active (p.nested active) source tagged (done.length + 1) lines g).map fun r =>
        ⟨active.dropLast, outer, none, r.2,
          if outer = [] then (done.map (·.2)).reverse ++ r.1 else output⟩) := by
  induction lines generalizing done g with
  | nil =>
    apply Comes.step (by simp)
    simp [step_eq, stepInside, passLines, Except.map, Frame.written]
  | cons raw rest ih =>
    rw [passLines_cons_map]
    apply Comes.bind (comes_passLine hnested)
    intro r _
    have h := @ih ((raw, r.1) :: done) r.2
    simpa using h

end

theorem comes_pass (active : List Address) (source : Text) (tagged : Bool) (lines : List Text)
    (outer : List Frame) (g : Progress) (output : List Text) :
    p.Comes ⟨active, ⟨source, tagged, [], lines⟩ :: outer, none, g, output⟩
      ((p.pass active source tagged lines g).map fun r =>
        ⟨active.dropLast, outer, none, r.2, if outer = [] then r.1 else output⟩) := by
  induction hk : p.tree.remaining active using Nat.strongRecOn
    generalizing active source tagged lines outer g output with
  | _ k ih =>
    rw [pass_eq]
    apply comes_passLines
    intro i t a ha hf g f outer
    have hlt : p.tree.remaining (active ++ [a]) < k := hk ▸ FileTree.remaining_lt ha hf
    simpa [nested] using ih _ hlt (active ++ [a]) i.path.toText true (sourceLines t) (f :: outer) g output rfl

section

variable {source : Text} {tagged : Bool} {script : Text}

theorem comes_run (h : p.start source tagged script = .ok s) :
    p.Comes s ((p.runLines source tagged (sourceLines script)).map fun r => ⟨[], [], none, r.2, r.1⟩) := by
  rw [start] at h
  rw [runLines]
  cases hn : FileTree.askSource source with
  | error f =>
    rw [hn] at h
    contradiction
  | ok n =>
    rw [hn] at h
    cases h
    exact comes_pass [(Path.ofText source).address p.tree.here] source tagged (sourceLines script) [] {} []

def Final (p : Project) (s : RunState) : Prop := ∀ s', ¬p.Moves s s'

/-- What a final state answers for the run. -/
def Answers (p : Project) (s : RunState) : Except Halt (Text × Progress) → Prop
  | .ok (t, g) => s.frames = [] ∧ t = Text.ofLines s.output ∧ g = s.progress
  | .error halt => s.frames ≠ [] ∧ p.step s = .error halt

theorem Answers.final {r : Except Halt (Text × Progress)} (h : p.Answers s r) : p.Final s := by
  rintro s' ⟨hne, hs⟩
  cases r with
  | ok q => exact hne h.1
  | error halt =>
    rw [h.2] at hs
    contradiction

theorem Answers.unique {r r' : Except Halt (Text × Progress)} (h : p.Answers s r) (h' : p.Answers s r') : r = r' := by
  cases r with
  | ok q =>
    cases r' with
    | ok q' => exact congrArg _ (Prod.ext (h.2.1.trans h'.2.1.symm) (h.2.2.trans h'.2.2.symm))
    | error halt' => exact absurd h.1 h'.1
  | error halt =>
    cases r' with
    | ok q' => exact absurd h'.1 h.1
    | error halt' => exact congrArg _ (Except.error.inj (h.2.symm.trans h'.2))

theorem Final.answers (h : p.Final s) : ∃ r, p.Answers s r := by
  by_cases hne : s.frames = []
  · exact ⟨.ok (Text.ofLines s.output, s.progress), hne, rfl, rfl⟩
  · cases hs : p.step s with
    | ok s' => exact absurd ⟨hne, hs⟩ (h s')
    | error halt => exact ⟨.error halt, hne, hs⟩

theorem exists_answers (h : p.start source tagged script = .ok s) :
    ∃ s', p.Reaches s s' ∧ p.Answers s' (p.run source tagged script) := by
  have hc := comes_run h
  rw [run]
  cases hr : p.runLines source tagged (sourceLines script) with
  | error halt =>
    rw [hr] at hc
    obtain ⟨s', hs, hne, he⟩ := hc
    exact ⟨s', hs, hne, he⟩
  | ok r =>
    rw [hr] at hc
    exact ⟨_, hc, rfl, rfl, rfl⟩

theorem exists_visited_answers {r : Except Halt (Text × Progress)} (h : p.run source tagged script = r)
    (hr : ∀ f, r ≠ .error ⟨.source f source, [], {}⟩) : ∃ s, p.Visits source tagged script s ∧ p.Answers s r := by
  cases hs : p.start source tagged script with
  | ok s₀ =>
    obtain ⟨s, hv, ha⟩ := exists_answers hs
    exact ⟨s, ⟨s₀, hs, hv⟩, h ▸ ha⟩
  | error halt =>
    rw [start] at hs
    rw [run, runLines] at h
    cases hn : FileTree.askSource source with
    | error f =>
      rw [hn] at h
      exact absurd h.symm (hr f)
    | ok n =>
      rw [hn] at hs
      contradiction

theorem moves_rightUnique : Relator.RightUnique p.Moves := by
  rintro s t t' ⟨-, h⟩ ⟨-, h'⟩
  exact Except.ok.inj (h.symm.trans h')

theorem Final.eq_of_reaches (h : p.Final s) (hr : p.Reaches s s') : s' = s := by
  rcases hr.cases_head with he | ⟨t, ht, -⟩
  · exact he.symm
  · exact absurd ht (h t)

theorem Visits.reaches_final {t : RunState} (h : p.Visits source tagged script s)
    (ht : p.Visits source tagged script t) (hf : p.Final t) : p.Reaches s t := by
  obtain ⟨s₀, h₀, hr⟩ := h
  obtain ⟨t₀, k₀, kr⟩ := ht
  obtain rfl := Except.ok.inj (h₀.symm.trans k₀)
  rcases hr.total_of_right_unique moves_rightUnique kr with h | h
  · exact h
  · obtain rfl := hf.eq_of_reaches h
    exact h

theorem Visits.answers (h : p.Visits source tagged script s) (hf : p.Final s) :
    p.Answers s (p.run source tagged script) := by
  obtain ⟨s₀, h₀, hr⟩ := h
  obtain ⟨t, ht, ha⟩ := exists_answers h₀
  obtain rfl := ha.final.eq_of_reaches (Visits.reaches_final ⟨s₀, h₀, ht⟩ ⟨s₀, h₀, hr⟩ hf)
  exact ha

theorem Visits.not_endless (h : p.Visits source tagged script s) :
    ¬∃ states : Nat → RunState, states 0 = s ∧ ∀ n, p.Moves (states n) (states (n + 1)) := by
  obtain ⟨s₀, h₀, hr⟩ := h
  obtain ⟨t, ht, ha⟩ := exists_answers h₀
  have hst := Visits.reaches_final ⟨s₀, h₀, hr⟩ ⟨s₀, h₀, ht⟩ ha.final
  induction hst using Relation.ReflTransGen.head_induction_on with
  | refl =>
    rintro ⟨states, rfl, hm⟩
    exact ha.final _ (hm 0)
  | head hmove _ ih =>
    rintro ⟨states, rfl, hm⟩
    refine ih (hr.tail hmove) ⟨fun n => states (n + 1), ?_, fun n => hm (n + 1)⟩
    exact moves_rightUnique (hm 0) hmove

end

end ScriptMacros.Project
