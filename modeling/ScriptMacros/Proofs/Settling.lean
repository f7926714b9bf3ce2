import ScriptMacros.Proofs.Rescanning

namespace ScriptMacros

namespace Expansion

variable {ms : List Macro} {line t u : Text} {k left count : Nat} {limit : Limit}

theorem lineAfter?_of_next? (h : next? ms line = some u) (k : Nat) :
    lineAfter? ms line (k + 1) = lineAfter? ms u k := by
  induction k with
  | zero => exact (lineAfter?_succ rfl).trans h
  | succ k ih => exact congrArg (Option.bind · (next? ms)) ih

theorem next?_eq_none_iff : next? ms line = none ↔ firstInvocation? ms line = none := Option.map_eq_none_iff

theorem advances_zero_iff (h : next? ms line = some u) : Advances ms line 0 ↔ u ≠ line := by
  have hone : lineAfter? ms line 1 = some u := (lineAfter?_succ rfl).trans h
  constructor
  · rintro ⟨t, v, ht, hv, hne⟩
    obtain rfl : line = t := Option.some.inj ht
    obtain rfl : u = v := Option.some.inj (hone.symm.trans hv)
    exact hne
  · intro hne
    exact ⟨line, u, rfl, hone, hne⟩

theorem advances_succ_iff (h : next? ms line = some u) : Advances ms line (k + 1) ↔ Advances ms u k := by
  rw [Advances, Advances, lineAfter?_of_next? h, lineAfter?_of_next? h]

theorem settles_zero_iff : Takes ms line (.settles 0 t) ↔ line = t ∧ firstInvocation? ms line = none := by
  constructor
  · rintro ⟨-, ht, hnone⟩
    obtain rfl : line = t := Option.some.inj ht
    exact ⟨rfl, hnone⟩
  · rintro ⟨rfl, hnone⟩
    exact ⟨fun j hj => absurd hj (Nat.not_lt_zero j), rfl, hnone⟩

theorem settles_succ_iff : Takes ms line (.settles (k + 1) t) ↔
    ∃ u, next? ms line = some u ∧ u ≠ line ∧ Takes ms u (.settles k t) := by
  constructor
  · rintro ⟨hadvances, ht, hnone⟩
    obtain ⟨v, u, hv, hu, -⟩ := hadvances 0 (Nat.succ_pos k)
    obtain rfl : line = v := Option.some.inj hv
    rw [lineAfter?_succ hv] at hu
    refine ⟨u, hu, (advances_zero_iff hu).1 (hadvances 0 (Nat.succ_pos k)), ?_, ?_, hnone⟩
    · intro j hj
      exact (advances_succ_iff hu).1 (hadvances (j + 1) (Nat.succ_lt_succ hj))
    · rw [← lineAfter?_of_next? hu, ht]
  · rintro ⟨u, hu, hne, hadvances, ht, hnone⟩
    refine ⟨?_, ?_, hnone⟩
    · intro j hj
      cases j with
      | zero => exact (advances_zero_iff hu).2 hne
      | succ j => exact (advances_succ_iff hu).2 (hadvances j (Nat.lt_of_succ_lt_succ hj))
    · rw [lineAfter?_of_next? hu, ht]

theorem eq_zero_of_settles (h : Takes ms line (.settles k t)) (hnone : next? ms line = none) : k = 0 ∧ line = t := by
  cases k with
  | zero => exact ⟨rfl, (settles_zero_iff.1 h).1⟩
  | succ k =>
    obtain ⟨u, hu, -⟩ := settles_succ_iff.1 h
    rw [hnone] at hu
    contradiction

theorem exists_succ_of_settles (h : Takes ms line (.settles k t)) (hu : next? ms line = some u) :
    ∃ j, k = j + 1 ∧ u ≠ line ∧ Takes ms u (.settles j t) := by
  cases k with
  | zero =>
    rw [next?_eq_none_iff.2 (settles_zero_iff.1 h).2] at hu
    contradiction
  | succ k =>
    obtain ⟨v, hv, hne, hsettles⟩ := settles_succ_iff.1 h
    obtain rfl : v = u := Option.some.inj (hv.symm.trans hu)
    exact ⟨k, rfl, hne, hsettles⟩

theorem settles_of_expandWithin (h : expandWithin ms left count line = .ok t) :
    ∃ k ≤ left, Takes ms line (.settles k t) := by
  fun_induction expandWithin ms left count line with
  | case1 left count line hf =>
    cases h
    exact ⟨0, Nat.zero_le left, settles_zero_iff.2 ⟨rfl, hf⟩⟩
  | case2 => contradiction
  | case3 => contradiction
  | case4 count line m i hf hi left ih =>
    obtain ⟨k, hk, hsettles⟩ := ih h
    have hne : i.result line ≠ line := fun he => hi ((result_eq_self_iff hf).1 he)
    exact ⟨k + 1, Nat.succ_le_succ hk, settles_succ_iff.2 ⟨_, next?_eq_some hf, hne, hsettles⟩⟩

theorem expand_eq_ok_iff :
    expand ms limit line = .ok t ↔ ∃ k ≤ limit.allowed?.getD 0, Takes ms line (.settles k t) := by
  cases hlimit : limit.allowed? with
  | some n =>
    have hexpand : expand ms limit line = expand ms (.count n) line := by
      rw [expand, hlimit]
      rfl
    rw [hexpand]
    constructor
    · exact settles_of_expandWithin
    · rintro ⟨k, hk, hadvances, ht, hnone⟩
      exact expand_of_settled hadvances ht hnone hk
  | none =>
    rw [expand, hlimit]
    constructor
    · intro h
      dsimp only at h
      split at h
      · next hf =>
        cases h
        exact ⟨0, Nat.le_refl 0, settles_zero_iff.2 ⟨rfl, hf⟩⟩
      · contradiction
    · rintro ⟨k, hk, hsettles⟩
      obtain rfl : k = 0 := Nat.le_zero.1 hk
      obtain ⟨rfl, hf⟩ := settles_zero_iff.1 hsettles
      rw [hf]

theorem exists_expand_eq_ok_iff : (∃ limit, expand ms limit line = .ok t) ↔ ∃ k, Takes ms line (.settles k t) := by
  constructor
  · rintro ⟨limit, h⟩
    obtain ⟨k, -, hsettles⟩ := expand_eq_ok_iff.1 h
    exact ⟨k, hsettles⟩
  · rintro ⟨k, hsettles⟩
    exact ⟨.count k, expand_eq_ok_iff.2 ⟨k, Nat.le_refl k, hsettles⟩⟩

def replacements (ms : List Macro) (limit : Limit) (line : Text) : Nat :=
  (steps ms (limit.allowed?.getD 0) line).length

theorem length_steps (h : Takes ms line (.settles k t)) (hk : k ≤ left) : (steps ms left line).length = k := by
  induction k generalizing line left with
  | zero =>
    obtain ⟨-, hf⟩ := settles_zero_iff.1 h
    cases left with
    | zero => rfl
    | succ left =>
      rw [steps, hf]
      rfl
  | succ k ih =>
    obtain ⟨u, hu, hne, hsettles⟩ := settles_succ_iff.1 h
    obtain ⟨m, i, hf, rfl⟩ := exists_of_next?_eq_some hu
    obtain ⟨left, rfl⟩ := Nat.exists_eq_add_of_le' (Nat.le_trans (Nat.le_add_left 1 k) hk)
    rw [steps, hf]
    dsimp only
    rw [if_neg fun he => hne ((result_eq_self_iff hf).2 he), List.length_cons,
      ih hsettles (Nat.le_of_succ_le_succ hk)]

theorem replacements_eq (h : Takes ms line (.settles k t)) (hk : k ≤ limit.allowed?.getD 0) :
    replacements ms limit line = k :=
  length_steps h hk

theorem settles_replacements (h : expand ms limit line = .ok t) :
    Takes ms line (.settles (replacements ms limit line) t) := by
  obtain ⟨k, hk, hsettles⟩ := expand_eq_ok_iff.1 h
  rwa [replacements_eq hsettles hk]

end Expansion

def Text.weigh (w : CodePoint → Nat) : Text → Nat
  | [] => 0
  | c :: t => w c + weigh w t

theorem Text.weigh_append (w : CodePoint → Nat) (s t : Text) : weigh w (s ++ t) = weigh w s + weigh w t := by
  induction s with
  | nil => exact (Nat.zero_add _).symm
  | cons c s ih => rw [List.cons_append, weigh, weigh, ih, Nat.add_assoc]

namespace Expansion

structure Lightens (w : CodePoint → Nat) (ms : List Macro) : Prop where
  object : ∀ m ∈ ms, m.parameters = none
  lighter : ∀ m ∈ ms, Text.weigh w m.body < Text.weigh w m.name

variable {w : CodePoint → Nat} {ms : List Macro} {u : Text}

theorem Lightens.next? (h : Lightens w ms) {line : Text} (hu : Expansion.next? ms line = some u) :
    Text.weigh w u < Text.weigh w line := by
  obtain ⟨m, i, hf, rfl⟩ := exists_of_next?_eq_some hu
  obtain ⟨hm, hi⟩ := firstInvocation?_eq_some hf
  obtain ⟨before, after, rfl, hresult, -⟩ := Macro.invocation?_object (h.object m hm) hi
  have hlighter := h.lighter m hm
  rw [hresult]
  simp only [Text.weigh_append]
  omega

theorem Lightens.exists_settles (h : Lightens w ms) (line : Text) :
    ∃ k t, Takes ms line (.settles k t) ∧ k + Text.weigh w t ≤ Text.weigh w line := by
  -- The weight falls at every replacement, also when a name comes up that was not in the line before.
  induction hn : Text.weigh w line using Nat.strong_induction_on generalizing line with
  | h n ih =>
    cases hnext : Expansion.next? ms line with
    | none => exact ⟨0, line, settles_zero_iff.2 ⟨rfl, next?_eq_none_iff.1 hnext⟩, by omega⟩
    | some u =>
      have hlt := h.next? hnext
      have hne : u ≠ line := fun he => Nat.lt_irrefl _ (he ▸ hlt)
      obtain ⟨k, t, hsettles, hk⟩ := ih _ (hn ▸ hlt) u rfl
      exact ⟨k + 1, t, settles_succ_iff.2 ⟨u, hnext, hne, hsettles⟩, by omega⟩

end Expansion

/-- Where bodies are lighter than names, a line is never given up under a limit of at least its weight, whatever names
come up where a body meets the text around it. -/
theorem MacroTable.expand_lightens {t : MacroTable} (hobject : ∀ m ∈ t.macros, m.parameters = none)
    {w : CodePoint → Nat}
    (hlighter : ∀ m ∈ t.macros, Text.weigh w m.body < Text.weigh w m.name) {line : Text} {n : Int}
    (hn : (Text.weigh w line : Int) ≤ n) :
    ∃ r, t.expand (.count n) line = .ok r ∧
      Expansion.replacements t.byLength (.count n) line + Text.weigh w r ≤ Text.weigh w line := by
  have hlightens : Expansion.Lightens w t.byLength :=
    ⟨fun m hm => hobject m (mem_longestFirst.1 hm), fun m hm => hlighter m (mem_longestFirst.1 hm)⟩
  obtain ⟨k, r, hsettles, hk⟩ := hlightens.exists_settles line
  have hle : k ≤ (Limit.count n).allowed?.getD 0 := by
    change k ≤ n.toNat
    omega
  refine ⟨r, Expansion.expand_eq_ok_iff.2 ⟨k, hle, hsettles⟩, ?_⟩
  rwa [Expansion.replacements_eq hsettles hle]

theorem MacroTable.expand_lightens_glued :
    let t := ofObjects [("AB".toText, "C".toText), ("CB".toText, "A".toText)]
    let w (c : CodePoint) : Nat := if c = 'B' then 1 else 2
    let line := "ABBABB".toText
    (∀ m ∈ t.macros, m.parameters = none) ∧ (∀ m ∈ t.macros, Text.weigh w m.body < Text.weigh w m.name) ∧
      Text.weigh w line = 8 ∧ Text.weigh w "AA".toText = 4 ∧ t.expand (.count 8) line = .ok "AA".toText ∧
      Expansion.replacements t.byLength (.count 8) line = 4 ∧
      ∃ r, t.expand (.count 8) line = .ok r ∧
        Expansion.replacements t.byLength (.count 8) line + Text.weigh w r ≤ Text.weigh w line := by
  intro t w line
  have hobject : ∀ m ∈ t.macros, m.parameters = none := by decide
  have hlighter : ∀ m ∈ t.macros, Text.weigh w m.body < Text.weigh w m.name := by decide +kernel
  have hline : Text.weigh w line = 8 := by decide +kernel
  have hexpand : t.expand (.count 8) line = .ok "AA".toText := by decide +kernel
  have hcount : Expansion.replacements t.byLength (.count 8) line = 4 := by decide +kernel
  refine ⟨hobject, hlighter, hline, by decide +kernel, hexpand, hcount, ?_⟩
  apply expand_lightens hobject hlighter
  rw [hline]
  decide

end ScriptMacros
