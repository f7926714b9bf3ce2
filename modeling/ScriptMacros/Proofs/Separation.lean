import ScriptMacros.Proofs.Framing
import ScriptMacros.Proofs.Settling

namespace ScriptMacros

theorem Macro.invocation?_separated {m : Macro} {c : CodePoint} (hp : m.parameters = none) (hname : m.name ≠ [])
    (hc : c ∉ m.name) (s₁ s₂ : Text) : m.invocation? (s₁ ++ c :: s₂) =
      ((m.invocation? s₁).map (Invocation.extend (c :: s₂))).or
        ((m.invocation? s₂).map (Invocation.shift (s₁.length + 1))) := by
  have hhead : ∀ d ∈ (c :: s₂).head?, d ∉ m.name := by
    intro d hd
    obtain rfl : c = d := Option.some.inj hd
    exact hc
  have hforeign : ∀ d ∈ [c], ∀ t, m.invocationAt? (d :: t) = none := by
    intro d hd
    obtain rfl := List.mem_singleton.1 hd
    exact invocationAt?_foreign hname hc
  have hbehind := Invocation.first?_append_of_none hforeign s₂
  rw [List.singleton_append] at hbehind
  have hshift : Invocation.shift s₁.length ∘ Invocation.shift [c].length = Invocation.shift (s₁.length + 1) := by
    funext i
    rw [Function.comp_apply, Invocation.shift_shift, List.length_singleton, Nat.add_comm 1]
  rw [invocation?_eq, invocation?_eq, invocation?_eq, Invocation.first?_append (invocationAt?_nil hname)
    (invocationAt?_append hhead (Or.inl hp)), hbehind, Option.map_map, hshift]

namespace Expansion

structure Separated (c : CodePoint) (ms : List Macro) : Prop where
  object : ∀ m ∈ ms, m.parameters = none
  name_ne_nil : ∀ m ∈ ms, m.name ≠ []
  notMem : ∀ m ∈ ms, c ∉ m.name

namespace Separated

variable {c : CodePoint} {ms : List Macro} {s₁ s₂ r r₁ r₂ : Text} {k k₁ k₂ : Nat}

theorem firstInvocation?_cases (h : Separated c ms) (s₁ s₂ : Text) :
    (firstInvocation? ms (s₁ ++ c :: s₂) = none ∧ firstInvocation? ms s₁ = none ∧ firstInvocation? ms s₂ = none) ∨
    (∃ m i, firstInvocation? ms (s₁ ++ c :: s₂) = some (m, i.extend (c :: s₂)) ∧
      firstInvocation? ms s₁ = some (m, i)) ∨
    ∃ m i, firstInvocation? ms (s₁ ++ c :: s₂) = some (m, i.shift (s₁.length + 1)) ∧
      firstInvocation? ms s₂ = some (m, i) := by
  have hinvocation : ∀ m ∈ ms, m.invocation? (s₁ ++ c :: s₂) =
      ((m.invocation? s₁).map (Invocation.extend (c :: s₂))).or
        ((m.invocation? s₂).map (Invocation.shift (s₁.length + 1))) := fun m hm =>
    Macro.invocation?_separated (h.object m hm) (h.name_ne_nil m hm) (h.notMem m hm) s₁ s₂
  clear h
  simp only [firstInvocation?]
  induction ms with
  | nil => exact Or.inl ⟨rfl, rfl, rfl⟩
  | cons m ms ih =>
    obtain ⟨hm, hms⟩ := List.forall_mem_cons.1 hinvocation
    simp only [List.findSome?_cons, hm]
    cases h₁ : m.invocation? s₁ with
    | some i => exact Or.inr (Or.inl ⟨m, i, rfl, rfl⟩)
    | none =>
      cases h₂ : m.invocation? s₂ with
      | some i => exact Or.inr (Or.inr ⟨m, i, rfl, rfl⟩)
      | none => exact ih hms

theorem next?_cases (h : Separated c ms) (s₁ s₂ : Text) :
    (next? ms (s₁ ++ c :: s₂) = none ∧ next? ms s₁ = none ∧ next? ms s₂ = none) ∨
    (∃ u, next? ms (s₁ ++ c :: s₂) = some (u ++ c :: s₂) ∧ next? ms s₁ = some u) ∨
    ∃ u, next? ms (s₁ ++ c :: s₂) = some (s₁ ++ c :: u) ∧ next? ms s₂ = some u := by
  rcases h.firstInvocation?_cases s₁ s₂ with ⟨hf, h₁, h₂⟩ | ⟨m, i, hf, h₁⟩ | ⟨m, i, hf, h₂⟩
  · exact Or.inl ⟨next?_eq_none_iff.2 hf, next?_eq_none_iff.2 h₁, next?_eq_none_iff.2 h₂⟩
  · have hcuts := Macro.cuts_of_invocation? (firstInvocation?_eq_some h₁).2
    refine Or.inr (Or.inl ⟨i.result s₁, ?_, next?_eq_some h₁⟩)
    rw [next?_eq_some hf, Invocation.result_extend hcuts]
  · refine Or.inr (Or.inr ⟨i.result s₂, ?_, next?_eq_some h₂⟩)
    have hresult := Invocation.result_shift (s₁ ++ [c]) s₂ i
    rw [List.length_append, List.length_singleton] at hresult
    rw [next?_eq_some hf]
    simpa using hresult

theorem exists_settles (h : Separated c ms) (hsettles : Takes ms (s₁ ++ c :: s₂) (.settles k r)) :
    ∃ k₁ k₂ r₁ r₂, k = k₁ + k₂ ∧ r = r₁ ++ c :: r₂ ∧ Takes ms s₁ (.settles k₁ r₁) ∧ Takes ms s₂ (.settles k₂ r₂) := by
  induction k generalizing s₁ s₂ with
  | zero =>
    obtain ⟨rfl, hf⟩ := settles_zero_iff.1 hsettles
    rcases h.firstInvocation?_cases s₁ s₂ with ⟨-, h₁, h₂⟩ | ⟨m, i, hf', -⟩ | ⟨m, i, hf', -⟩
    · exact ⟨0, 0, s₁, s₂, rfl, rfl, settles_zero_iff.2 ⟨rfl, h₁⟩, settles_zero_iff.2 ⟨rfl, h₂⟩⟩
    · rw [hf'] at hf
      contradiction
    · rw [hf'] at hf
      contradiction
  | succ k ih =>
    obtain ⟨u, hu, hne, hrest⟩ := settles_succ_iff.1 hsettles
    rcases h.next?_cases s₁ s₂ with ⟨hnone, -⟩ | ⟨v, hv, h₁⟩ | ⟨v, hv, h₂⟩
    · rw [hnone] at hu
      contradiction
    · obtain rfl : v ++ c :: s₂ = u := Option.some.inj (hv.symm.trans hu)
      obtain ⟨k₁, k₂, r₁, r₂, rfl, rfl, hs₁, hs₂⟩ := ih hrest
      have hne₁ : v ≠ s₁ := fun he => hne (by rw [he])
      exact ⟨k₁ + 1, k₂, r₁, r₂, by omega, rfl, settles_succ_iff.2 ⟨v, h₁, hne₁, hs₁⟩, hs₂⟩
    · obtain rfl : s₁ ++ c :: v = u := Option.some.inj (hv.symm.trans hu)
      obtain ⟨k₁, k₂, r₁, r₂, rfl, rfl, hs₁, hs₂⟩ := ih hrest
      have hne₂ : v ≠ s₂ := fun he => hne (by rw [he])
      exact ⟨k₁, k₂ + 1, r₁, r₂, by omega, rfl, hs₁, settles_succ_iff.2 ⟨v, h₂, hne₂, hs₂⟩⟩

theorem settles (h : Separated c ms) (hs₁ : Takes ms s₁ (.settles k₁ r₁)) (hs₂ : Takes ms s₂ (.settles k₂ r₂)) :
    Takes ms (s₁ ++ c :: s₂) (.settles (k₁ + k₂) (r₁ ++ c :: r₂)) := by
  -- The line decides which side is next, so the induction is on what is left to replace on both.
  induction hk : k₁ + k₂ using Nat.strong_induction_on generalizing s₁ s₂ k₁ k₂ with
  | h k ih =>
    subst hk
    rcases h.next?_cases s₁ s₂ with ⟨hnone, h₁, h₂⟩ | ⟨v, hv, h₁⟩ | ⟨v, hv, h₂⟩
    · obtain ⟨rfl, rfl⟩ := eq_zero_of_settles hs₁ h₁
      obtain ⟨rfl, rfl⟩ := eq_zero_of_settles hs₂ h₂
      exact settles_zero_iff.2 ⟨rfl, next?_eq_none_iff.1 hnone⟩
    · obtain ⟨k₁, rfl, hne, hrest⟩ := exists_succ_of_settles hs₁ h₁
      rw [Nat.succ_add]
      refine settles_succ_iff.2 ⟨v ++ c :: s₂, hv, ?_, ih (k₁ + k₂) (by omega) hrest hs₂ rfl⟩
      exact fun he => hne (List.append_cancel_right he)
    · obtain ⟨k₂, rfl, hne, hrest⟩ := exists_succ_of_settles hs₂ h₂
      rw [Nat.add_succ]
      refine settles_succ_iff.2 ⟨s₁ ++ c :: v, hv, ?_, ih (k₁ + k₂) (by omega) hs₁ hrest rfl⟩
      exact fun he => hne (List.cons.inj (List.append_cancel_left he)).2

end Separated

end Expansion

/-- A character that no name has separates the line into two that are expanded on their own, even if bodies bring in
more of it. -/
theorem MacroTable.expand_separated {t : MacroTable} (hobject : ∀ m ∈ t.macros, m.parameters = none)
    (hnames : ∀ m ∈ t.macros, m.name ≠ []) {c : CodePoint} (hc : ∀ m ∈ t.macros, c ∉ m.name) (s₁ s₂ : Text) :
    (∀ r, (∃ limit, t.expand limit (s₁ ++ c :: s₂) = .ok r) ↔ ∃ r₁ r₂, r = r₁ ++ c :: r₂ ∧
      (∃ limit, t.expand limit s₁ = .ok r₁) ∧ ∃ limit, t.expand limit s₂ = .ok r₂) ∧
    ∀ limit limit₁ limit₂ r r₁ r₂, t.expand limit (s₁ ++ c :: s₂) = .ok r →
      t.expand limit₁ s₁ = .ok r₁ → t.expand limit₂ s₂ = .ok r₂ →
      Expansion.replacements t.byLength limit (s₁ ++ c :: s₂) =
        Expansion.replacements t.byLength limit₁ s₁ + Expansion.replacements t.byLength limit₂ s₂ := by
  have hseparated : Expansion.Separated c t.byLength :=
    ⟨fun m hm => hobject m (mem_longestFirst.1 hm), fun m hm => hnames m (mem_longestFirst.1 hm),
      fun m hm => hc m (mem_longestFirst.1 hm)⟩
  refine ⟨fun r => ?_, ?_⟩
  · constructor
    · intro h
      obtain ⟨k, hsettles⟩ := Expansion.exists_expand_eq_ok_iff.1 h
      obtain ⟨k₁, k₂, r₁, r₂, -, hr, hs₁, hs₂⟩ := hseparated.exists_settles hsettles
      exact ⟨r₁, r₂, hr, Expansion.exists_expand_eq_ok_iff.2 ⟨k₁, hs₁⟩, Expansion.exists_expand_eq_ok_iff.2 ⟨k₂, hs₂⟩⟩
    · rintro ⟨r₁, r₂, rfl, h₁, h₂⟩
      obtain ⟨k₁, hs₁⟩ := Expansion.exists_expand_eq_ok_iff.1 h₁
      obtain ⟨k₂, hs₂⟩ := Expansion.exists_expand_eq_ok_iff.1 h₂
      exact Expansion.exists_expand_eq_ok_iff.2 ⟨k₁ + k₂, hseparated.settles hs₁ hs₂⟩
  · intro limit limit₁ limit₂ r r₁ r₂ h h₁ h₂
    have hsettles := Expansion.settles_replacements h
    have hsides := hseparated.settles (Expansion.settles_replacements h₁) (Expansion.settles_replacements h₂)
    exact (Expansion.Course.settles.inj (hsettles.unique hsides)).1

theorem MacroTable.expand_separated_interleaved :
    let t := ofObjects [("AB".toText, ";C".toText), ("C".toText, "1".toText), ("XY".toText, "AB".toText)]
    (∀ m ∈ t.macros, m.parameters = none) ∧ (∀ m ∈ t.macros, m.name ≠ []) ∧ (∀ m ∈ t.macros, .char ';' ∉ m.name) ∧
      t.expand (.count 3) "CAB".toText = .ok "1;1".toText ∧
      t.expand (.count 3) "XY".toText = .ok ";1".toText ∧
      (∃ limit, t.expand limit "CAB;XY".toText = .ok "1;1;;1".toText) ∧
      t.expand (.count 6) "CAB;XY".toText = .ok "1;1;;1".toText ∧
      Expansion.replacements t.byLength (.count 6) "CAB;XY".toText =
        Expansion.replacements t.byLength (.count 3) "CAB".toText +
          Expansion.replacements t.byLength (.count 3) "XY".toText := by
  intro t
  have hobject : ∀ m ∈ t.macros, m.parameters = none := by decide
  have hnames : ∀ m ∈ t.macros, m.name ≠ [] := by decide
  have hc : ∀ m ∈ t.macros, .char ';' ∉ m.name := by decide
  have hleft : t.expand (.count 3) "CAB".toText = .ok "1;1".toText := by decide +kernel
  have hright : t.expand (.count 3) "XY".toText = .ok ";1".toText := by decide +kernel
  have hline : t.expand (.count 6) "CAB;XY".toText = .ok "1;1;;1".toText := by decide +kernel
  obtain ⟨hiff, hcount⟩ := expand_separated hobject hnames hc "CAB".toText "XY".toText
  exact ⟨hobject, hnames, hc, hleft, hright,
    (hiff "1;1;;1".toText).2 ⟨_, _, rfl, ⟨_, hleft⟩, ⟨_, hright⟩⟩, hline, hcount _ _ _ _ _ _ hline hleft hright⟩

end ScriptMacros
