import ScriptMacros.Proofs.Run.OpenFiles

namespace ScriptMacros

inductive RunState.Collects (s : RunState) : Progress → Prop
  | keep : Collects s s.progress
  | define {f : Frame} {raw : Text} {d : Directive} {e : Declaration} : f ∈ s.frames → raw ∈ f.left →
      Directive.ofLine? (Line.normalize raw) = some d → Declaration.parse d.value = .ok e →
      Collects s (s.progress.define f.place f.tagged d.value e)
  | record (i : Include) : Collects s (s.progress.record i)

def RunState.Clean (s : RunState) : Prop := ∀ f ∈ s.frames, ∀ raw ∈ f.left, .char '\n' ∉ raw ∧ .char '\r' ∉ raw

namespace Project

variable {p : Project} {s s' t : RunState} {Q : Progress → Prop} {source : Text} {tagged : Bool} {script : Text}

def collected : Except Halt RunState → Progress
  | .ok s => s.progress
  | .error halt => halt.progress

theorem collected_stepEnter (place : Location) (i : Include) : collected (p.stepEnter s place i) = s.progress := by
  rw [stepEnter]
  split <;> rfl

theorem collected_stepRewrite (f : Frame) (outer : List Frame) (w : Rewriting) :
    collected (p.stepRewrite s f outer w) = s.progress := by
  rw [stepRewrite]
  dsimp only
  split
  · rfl
  · split
    · rfl
    · split
      · rfl
      · split <;> rfl

theorem collected_stepDirective (tagged : Bool) (place : Location) (d : Directive) :
    collected (p.stepDirective s tagged place d) = s.progress ∨
      (∃ e, Declaration.parse d.value = .ok e ∧
        collected (p.stepDirective s tagged place d) = s.progress.define place tagged d.value e) ∨
      ∃ i, collected (p.stepDirective s tagged place d) = s.progress.record i := by
  rw [stepDirective_eq]
  cases d.kind with
  | define =>
    dsimp only
    cases Declaration.parse d.value with
    | ok e => exact Or.inr (Or.inl ⟨e, rfl, rfl⟩)
    | error f => exact Or.inl rfl
  | inclusion =>
    dsimp only
    split
    · exact Or.inl rfl
    · split
      · exact Or.inl rfl
      · next i hi => exact Or.inr (Or.inr ⟨i, collected_stepEnter _ _⟩)
  | condition => exact Or.inl rfl
  | unknown => exact Or.inl rfl

theorem collects_step (s : RunState) : s.Collects (collected (p.step s)) := by
  obtain ⟨stack, frames, rewriting, g, output⟩ := s
  cases frames with
  | nil => exact .keep
  | cons f outer =>
    rw [step_eq]
    dsimp only
    rw [stepInside]
    cases rewriting with
    | some w =>
      dsimp only
      rw [collected_stepRewrite]
      exact .keep
    | none =>
      cases hl : f.left with
      | nil => exact .keep
      | cons raw rest =>
        dsimp only
        cases hd : Directive.ofLine? (Line.normalize raw) with
        | none => exact .keep
        | some d =>
          have hraw : raw ∈ f.left := hl ▸ List.mem_cons_self
          rcases collected_stepDirective f.tagged f.place d with h | ⟨e, he, h⟩ | ⟨i, h⟩
          · exact h ▸ .keep
          · exact h ▸ .define List.mem_cons_self hraw hd he
          · exact h ▸ .record i

theorem exists_left_of_subset {f f' k : Frame} {outer : List Frame} {raw : Text} (h : f'.left ⊆ f.left)
    (hk : k ∈ f' :: outer) (hraw : raw ∈ k.left) : ∃ k ∈ f :: outer, raw ∈ k.left := by
  rcases List.mem_cons.1 hk with rfl | hk
  · exact ⟨f, List.mem_cons_self, h hraw⟩
  · exact ⟨k, List.mem_cons_of_mem f hk, hraw⟩

theorem Moves.left (h : p.Moves s s') {k : Frame} {raw : Text} (hk : k ∈ s'.frames) (hraw : raw ∈ k.left) :
    (∃ k ∈ s.frames, raw ∈ k.left) ∨ ∃ text, raw ∈ sourceLines text := by
  obtain ⟨hne, h⟩ := h
  obtain ⟨stack, frames, rewriting, g, output⟩ := s
  cases frames with
  | nil => contradiction
  | cons f outer =>
    rw [step_eq] at h
    dsimp only at h
    rw [stepInside] at h
    cases rewriting with
    | some w =>
      rcases stepRewrite_eq_ok h with rfl | ⟨current, rfl⟩
      · have hsame : (f.finish w.raw w.current f.left).left ⊆ f.left := List.Subset.refl f.left
        exact Or.inl (exists_left_of_subset hsame hk hraw)
      · exact Or.inl ⟨k, hk, hraw⟩
    | none =>
      cases hl : f.left with
      | nil =>
        rw [hl] at h
        cases h
        exact Or.inl ⟨k, List.mem_cons_of_mem f hk, hraw⟩
      | cons next rest =>
        rw [hl] at h
        have hrest : rest ⊆ f.left := hl ▸ List.subset_cons_self next rest
        dsimp only at h
        split at h
        · cases h
          exact Or.inl (exists_left_of_subset hrest hk hraw)
        · rcases stepDirective_eq_ok h with ⟨-, g, rfl⟩ | ⟨-, -, i, -, -, he⟩
          · exact Or.inl (exists_left_of_subset hrest hk hraw)
          · rcases stepEnter_eq_ok he with rfl | ⟨text, a, ha, hf, -, rfl⟩
            · exact Or.inl (exists_left_of_subset hrest hk hraw)
            · rcases List.mem_cons.1 hk with rfl | hk
              · exact Or.inr ⟨text, hraw⟩
              · exact Or.inl (exists_left_of_subset hrest hk hraw)

theorem Moves.clean (h : p.Moves s s') (hs : s.Clean) : s'.Clean := by
  intro k hk raw hraw
  rcases h.left hk hraw with ⟨f, hf, hraw⟩ | ⟨text, hraw⟩
  · exact hs f hf raw hraw
  · exact sourceLines_clean hraw

theorem Visits.clean (h : p.Visits source tagged script s) : s.Clean := by
  refine Visits.invariant ?_ (fun s s' _ hs hm => hm.clean hs) h
  intro s₀ hs₀ f hf raw hraw
  rw [(start_eq_ok hs₀).2] at hf
  obtain rfl := List.mem_singleton.1 hf
  exact sourceLines_clean hraw

def Kept (Q : Progress → Prop) : Prop := ∀ (s : RunState) (g : Progress), s.Clean → Q s.progress → s.Collects g → Q g

theorem Stable.kept (hQ : Stable Q) : Kept Q := by
  intro s g hc hs h
  cases h with
  | keep => exact hs
  | @define f raw d e hf hraw hd he =>
    obtain ⟨hn, hr⟩ := hc f hf raw hraw
    exact hQ.define f.place f.tagged hn hr hd he hs
  | record i => exact hQ.record i hs

theorem Kept.moves (hQ : Kept Q) (hc : s.Clean) (hs : Q s.progress) (h : p.Moves s s') : Q s'.progress := by
  have hcollects := p.collects_step s
  rw [h.2] at hcollects
  exact hQ s _ hc hs hcollects

theorem Kept.visits (hQ : Kept Q) (h₀ : Q {}) (h : p.Visits source tagged script s) : Q s.progress := by
  refine Visits.invariant ?_ (fun s s' hs hg hm => hQ.moves hs.clean hg hm) h
  intro s₀ hs₀
  rw [start] at hs₀
  split at hs₀
  · contradiction
  · cases hs₀
    exact h₀

theorem Kept.reaches (hQ : Kept Q) (h : p.Visits source tagged script s) (hs : Q s.progress) (hr : p.Reaches s t) :
    Q t.progress := by
  induction hr with
  | refl => exact hs
  | tail hr hm ih => exact hQ.moves (h.trans hr).clean ih hm

theorem Kept.answers (hQ : Kept Q) (hc : s.Clean) (hs : Q s.progress) {r : Except Halt (Text × Progress)}
    (h : p.Answers s r) : Q (Report.ofRun r).progress := by
  cases r with
  | ok q =>
    obtain ⟨-, -, hg⟩ := h
    change Q q.2
    rw [hg]
    exact hs
  | error halt =>
    have hcollects := p.collects_step s
    rw [h.2] at hcollects
    exact hQ s _ hc hs hcollects

theorem Kept.report (hQ : Kept Q) (h : p.Visits source tagged script s) (hs : Q s.progress) :
    Q (Report.ofRun (p.run source tagged script)).progress := by
  obtain ⟨s₀, h₀, hr⟩ := h
  obtain ⟨t, ht, ha⟩ := exists_answers h₀
  have hst : p.Reaches s t := Visits.reaches_final ⟨s₀, h₀, hr⟩ ⟨s₀, h₀, ht⟩ ha.final
  exact hQ.answers (Visits.clean ⟨s₀, h₀, ht⟩) (hQ.reaches ⟨s₀, h₀, hr⟩ hs hst) ha

theorem Kept.report_of_empty (hQ : Kept Q) (h₀ : Q {}) : Q (Report.ofRun (p.run source tagged script)).progress := by
  cases hs : p.start source tagged script with
  | ok s =>
    have hv : p.Visits source tagged script s := ⟨s, hs, .refl⟩
    exact hQ.report hv (hQ.visits h₀ hv)
  | error halt =>
    rw [start] at hs
    rw [run, runLines]
    cases hn : FileTree.askSource source with
    | error f => exact h₀
    | ok k =>
      rw [hn] at hs
      contradiction

end Project

end ScriptMacros
