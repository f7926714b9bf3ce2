import Mathlib.Data.Nat.Find
import Mathlib.Logic.ExistsUnique
import ScriptMacros.Proofs.Conservation

namespace ScriptMacros

namespace Expansion

def lineAfter? (ms : List Macro) (line : Text) : Nat → Option Text
  | 0 => some line
  | k + 1 => (lineAfter? ms line k).bind (next? ms)

def Advances (ms : List Macro) (line : Text) (k : Nat) : Prop :=
  ∃ t u, lineAfter? ms line k = some t ∧ lineAfter? ms line (k + 1) = some u ∧ u ≠ t

inductive Course where
  | settles (count : Nat) (result : Text)
  | stalls (count : Nat)
  | endless

/-- A line settles when no macro has an invocation any more, and stalls when a replacement changes nothing. Up to
there, no two neighbouring lines are equal. -/
def Takes (ms : List Macro) (line : Text) : Course → Prop
  | .settles k t => (∀ j < k, Advances ms line j) ∧ lineAfter? ms line k = some t ∧ firstInvocation? ms t = none
  | .stalls k => (∀ j < k, Advances ms line j) ∧
      ∃ t, lineAfter? ms line k = some t ∧ lineAfter? ms line (k + 1) = some t
  | .endless => ∀ j, Advances ms line j

def GivesUp (ms : List Macro) (limit : Limit) (line : Text) (count : Nat) : Prop :=
  ∃ k t m i, count = k + 1 ∧ lineAfter? ms line k = some t ∧ firstInvocation? ms t = some (m, i) ∧
    expand ms limit line = .error (.recursion m.name count)

variable {ms : List Macro} {line t u : Text} {k left count : Nat} {m : Macro} {i : Invocation} {n : Int}

theorem exists_of_next?_eq_some (h : next? ms t = some u) :
    ∃ m i, firstInvocation? ms t = some (m, i) ∧ i.result t = u := by
  obtain ⟨⟨m, i⟩, hf, hu⟩ := Option.map_eq_some_iff.1 h
  exact ⟨m, i, hf, hu⟩

theorem next?_eq_some (h : firstInvocation? ms t = some (m, i)) : next? ms t = some (i.result t) := by
  rw [next?, h]
  rfl

theorem lineAfter?_succ (h : lineAfter? ms line k = some t) : lineAfter? ms line (k + 1) = next? ms t := by
  rw [lineAfter?, h]
  rfl

theorem expandWithin_of_none (h : firstInvocation? ms t = none) : expandWithin ms left count t = .ok t := by
  rw [expandWithin, h]

theorem expandWithin_of_stuck (hf : firstInvocation? ms t = some (m, i)) (h : i.result t = t ∨ left = 0) :
    expandWithin ms left count t = .error (.recursion m.name (count + 1)) := by
  rw [expandWithin, hf]
  dsimp only
  rcases h with h | rfl
  · rw [if_pos ((result_eq_self_iff hf).1 h)]
  · split <;> rfl

theorem expandWithin_succ (hn : next? ms t = some u) (hne : u ≠ t) :
    expandWithin ms (left + 1) count t = expandWithin ms left (count + 1) u := by
  obtain ⟨m, i, hf, rfl⟩ := exists_of_next?_eq_some hn
  rw [expandWithin, hf]
  dsimp only
  rw [if_neg fun he => hne ((result_eq_self_iff hf).2 he)]

theorem expandWithin_lineAfter? (h : ∀ j < k, Advances ms line j) (ht : lineAfter? ms line k = some t) (left : Nat) :
    expandWithin ms (k + left) 0 line = expandWithin ms left k t := by
  induction k generalizing t left with
  | zero =>
    obtain rfl : line = t := Option.some.inj ht
    rw [Nat.zero_add]
  | succ k ih =>
    obtain ⟨u, t', hu, ht', hne⟩ := h k (Nat.lt_succ_self k)
    obtain rfl : t' = t := Option.some.inj (ht'.symm.trans ht)
    rw [lineAfter?_succ hu] at ht'
    have hk := ih (fun j hj => h j (Nat.lt_succ_of_lt hj)) hu (left + 1)
    rw [← expandWithin_succ ht' hne, ← hk, Nat.add_assoc, Nat.add_comm 1 left]

theorem expand_of_settled (h : ∀ j < k, Advances ms line j) (ht : lineAfter? ms line k = some t)
    (hnone : firstInvocation? ms t = none) (hk : k ≤ n.toNat) : expand ms (.count n) line = .ok t := by
  obtain ⟨left, hleft⟩ := Nat.exists_eq_add_of_le hk
  change expandWithin ms n.toNat 0 line = .ok t
  rw [hleft, expandWithin_lineAfter? h ht, expandWithin_of_none hnone]

theorem givesUp_of_stuck (h : ∀ j < k, Advances ms line j) (ht : lineAfter? ms line k = some t)
    (hn : next? ms t = some u) (hk : k ≤ n.toNat) (hstuck : u = t ∨ k = n.toNat) :
    GivesUp ms (.count n) line (k + 1) := by
  obtain ⟨m, i, hf, rfl⟩ := exists_of_next?_eq_some hn
  obtain ⟨left, hleft⟩ := Nat.exists_eq_add_of_le hk
  refine ⟨k, t, m, i, rfl, ht, hf, ?_⟩
  change expandWithin ms n.toNat 0 line = _
  rw [hleft, expandWithin_lineAfter? h ht]
  apply expandWithin_of_stuck hf
  exact hstuck.imp_right (by omega)

theorem givesUp_of_advances (h : ∀ j ≤ n.toNat, Advances ms line j) : GivesUp ms (.count n) line (n.toNat + 1) := by
  obtain ⟨t, u, ht, hu, -⟩ := h n.toNat (Nat.le_refl _)
  rw [lineAfter?_succ ht] at hu
  exact givesUp_of_stuck (fun j hj => h j (Nat.le_of_lt hj)) ht hu (Nat.le_refl _) (Or.inr rfl)

theorem not_advances_of_settled (ht : lineAfter? ms line k = some t) (hnone : firstInvocation? ms t = none) :
    ¬Advances ms line k := by
  rintro ⟨t', u, ht', hu, -⟩
  rw [lineAfter?_succ ht, next?, hnone] at hu
  contradiction

theorem not_advances_of_stalled (ht : lineAfter? ms line k = some t) (hs : lineAfter? ms line (k + 1) = some t) :
    ¬Advances ms line k := by
  rintro ⟨t', u, ht', hu, hne⟩
  exact hne ((Option.some.inj (hu.symm.trans hs)).trans (Option.some.inj (ht.symm.trans ht')))

theorem exists_lineAfter? (h : ∀ j < k, Advances ms line j) : ∃ t, lineAfter? ms line k = some t := by
  cases k with
  | zero => exact ⟨line, rfl⟩
  | succ k =>
    obtain ⟨-, u, -, hu, -⟩ := h k (Nat.lt_succ_self k)
    exact ⟨u, hu⟩

theorem exists_takes (ms : List Macro) (line : Text) : ∃ c, Takes ms line c := by
  by_cases h : ∃ k, ¬Advances ms line k
  · classical
    -- The least replacement that does not change the line is the end of its course.
    have hlt : ∀ j < Nat.find h, Advances ms line j := fun j hj => not_not.1 (Nat.find_min h hj)
    obtain ⟨t, ht⟩ := exists_lineAfter? hlt
    cases hf : firstInvocation? ms t with
    | none => exact ⟨.settles _ t, hlt, ht, hf⟩
    | some q =>
      have hu := (lineAfter?_succ ht).trans (next?_eq_some hf)
      have hsame : q.2.result t = t := not_not.1 fun hne => Nat.find_spec h ⟨t, _, ht, hu, hne⟩
      rw [hsame] at hu
      exact ⟨.stalls _, hlt, t, ht, hu⟩
  · exact ⟨.endless, fun j => not_not.1 fun hj => h ⟨j, hj⟩⟩

def Course.length? : Course → Option Nat
  | settles k _ => some k
  | stalls k => some k
  | endless => none

theorem Takes.ends {c : Course} (h : Takes ms line c) (hk : c.length? = some k) :
    (∀ j < k, Advances ms line j) ∧ ¬Advances ms line k := by
  cases c with
  | settles l t =>
    obtain rfl : l = k := Option.some.inj hk
    exact ⟨h.1, not_advances_of_settled h.2.1 h.2.2⟩
  | stalls l =>
    obtain rfl : l = k := Option.some.inj hk
    obtain ⟨hlt, t, ht, hs⟩ := h
    exact ⟨hlt, not_advances_of_stalled ht hs⟩
  | endless => contradiction

theorem Takes.advances {c : Course} (h : Takes ms line c) (hc : c.length? = none) (j : Nat) : Advances ms line j := by
  cases c with
  | settles => contradiction
  | stalls => contradiction
  | endless => exact h j

theorem Takes.length?_eq {c c' : Course} (h : Takes ms line c) (h' : Takes ms line c') : c.length? = c'.length? := by
  cases hc : c.length? with
  | none =>
    cases hc' : c'.length? with
    | none => rfl
    | some l => exact absurd (h.advances hc l) (h'.ends hc').2
  | some k =>
    obtain ⟨hlt, hend⟩ := h.ends hc
    cases hc' : c'.length? with
    | none => exact absurd (h'.advances hc' k) hend
    | some l =>
      obtain ⟨hlt', hend'⟩ := h'.ends hc'
      rcases Nat.lt_trichotomy k l with hkl | rfl | hkl
      · exact absurd (hlt' k hkl) hend
      · rfl
      · exact absurd (hlt l hkl) hend'

theorem Takes.unique {c c' : Course} (h : Takes ms line c) (h' : Takes ms line c') : c = c' := by
  have hlen := h.length?_eq h'
  -- A settled line has no further replacement, so courses of one length are of one kind.
  have hkind : ∀ {k t}, Takes ms line (.settles k t) → ¬Takes ms line (.stalls k) := by
    rintro k t ⟨-, ht, hnone⟩ ⟨-, u, hu, hs⟩
    obtain rfl : t = u := Option.some.inj (ht.symm.trans hu)
    rw [lineAfter?_succ ht, next?, hnone] at hs
    contradiction
  cases c with
  | settles k t =>
    cases c' with
    | settles l u =>
      obtain rfl : k = l := Option.some.inj hlen
      rw [Option.some.inj (h.2.1.symm.trans h'.2.1)]
    | stalls l =>
      obtain rfl : k = l := Option.some.inj hlen
      exact absurd h' (hkind h)
    | endless => contradiction
  | stalls k =>
    cases c' with
    | settles l u =>
      obtain rfl : k = l := Option.some.inj hlen
      exact absurd h (hkind h')
    | stalls l => rw [Option.some.inj hlen]
    | endless => contradiction
  | endless =>
    cases c' with
    | settles => contradiction
    | stalls => contradiction
    | endless => rfl

end Expansion

def MacroTable.ofObjects (l : List (Text × Text)) : MacroTable :=
  .ofList (l.map fun (name, body) => ⟨name, none, { value := body, location := ⟨[], 1, 1⟩ }⟩)

open Expansion in
/-- The limit decides when a line is given up, and never what it becomes. -/
theorem MacroTable.expand_course (t : MacroTable) (line : Text) :
    (∃! c, Takes t.byLength line c) ∧
    (∀ k u, Takes t.byLength line (.settles k u) →
      (∀ n : Int, k = 0 ∨ (k : Int) ≤ n → t.expand (.count n) line = .ok u) ∧
      (∀ n : Int, ¬(k = 0 ∨ (k : Int) ≤ n) → GivesUp t.byLength (.count n) line (n.toNat + 1)) ∧
      ∀ n : Int, t.expand (.count n) u = .ok u) ∧
    (∀ k, Takes t.byLength line (.stalls k) →
      ∀ n : Int, GivesUp t.byLength (.count n) line (min (k + 1) (n.toNat + 1))) ∧
    (Takes t.byLength line .endless → ∀ n : Int, GivesUp t.byLength (.count n) line (n.toNat + 1)) := by
  refine ⟨?_, ?_, ?_, ?_⟩
  · obtain ⟨c, hc⟩ := exists_takes t.byLength line
    exact ⟨c, hc, fun c' hc' => hc'.unique hc⟩
  · rintro k u ⟨hlt, hu, hnone⟩
    refine ⟨?_, ?_, ?_⟩
    · intro n hn
      exact expand_of_settled hlt hu hnone (by omega)
    · intro n hn
      exact givesUp_of_advances fun j hj => hlt j (by omega)
    · intro n
      exact expand_of_settled (fun j hj => absurd hj (Nat.not_lt_zero j)) rfl hnone (Nat.zero_le _)
  · rintro k ⟨hlt, u, hu, hs⟩ n
    rcases Nat.lt_or_ge n.toNat k with hn | hn
    · rw [Nat.min_eq_right (by omega)]
      exact givesUp_of_advances fun j hj => hlt j (by omega)
    · rw [Nat.min_eq_left (by omega)]
      rw [lineAfter?_succ hu] at hs
      exact givesUp_of_stuck hlt hu hs hn (Or.inl rfl)
  · intro h n
    exact givesUp_of_advances fun j _ => h j

open Expansion in
theorem MacroTable.expand_course_each :
    let resting := ofObjects [(['A'], ['B', 'B']), (['B'], ['c'])]
    let stuck := ofObjects [(['A'], ['B']), (['B'], ['B'])]
    let swapping := ofObjects [(['A'], ['B']), (['B'], ['A'])]
    (Takes resting.byLength ['A'] (.settles 3 ['c', 'c']) ∧ resting.expand (.count 3) [.char 'A'] = .ok ['c', 'c'] ∧
      GivesUp resting.byLength (.count 2) ['A'] 3 ∧ GivesUp resting.byLength (.count (-1)) ['A'] 1) ∧
    (Takes stuck.byLength ['A'] (.stalls 1) ∧ GivesUp stuck.byLength (.count 5) ['A'] 2 ∧
      GivesUp stuck.byLength (.count 0) ['A'] 1) ∧
    Takes swapping.byLength ['A'] .endless ∧ GivesUp swapping.byLength (.count 4) ['A'] 5 := by
  intro resting stuck swapping
  have hresting : Takes resting.byLength ['A'] (.settles 3 ['c', 'c']) := by
    refine ⟨fun j hj => ?_, rfl, rfl⟩
    match j, hj with
    | 0, _ => exact ⟨['A'], ['B', 'B'], rfl, rfl, by decide⟩
    | 1, _ => exact ⟨['B', 'B'], ['c', 'B'], rfl, rfl, by decide⟩
    | 2, _ => exact ⟨['c', 'B'], ['c', 'c'], rfl, rfl, by decide⟩
  have hstuck : Takes stuck.byLength ['A'] (.stalls 1) := by
    refine ⟨fun j hj => ?_, "B".toText, rfl, rfl⟩
    obtain rfl : j = 0 := by omega
    exact ⟨['A'], "B".toText, rfl, rfl, by decide⟩
  have hswapping : Takes swapping.byLength ['A'] .endless := by
    have hboth : ∀ j, lineAfter? swapping.byLength ['A'] j = some [.char 'A'] ∨
        lineAfter? swapping.byLength ['A'] j = some [.char 'B'] := by
      intro j
      induction j with
      | zero => exact Or.inl rfl
      | succ j ih =>
        rcases ih with ih | ih
        · exact Or.inr ((lineAfter?_succ ih).trans rfl)
        · exact Or.inl ((lineAfter?_succ ih).trans rfl)
    intro j
    rcases hboth j with h | h
    · exact ⟨['A'], "B".toText, h, (lineAfter?_succ h).trans rfl, by decide⟩
    · exact ⟨['B'], "A".toText, h, (lineAfter?_succ h).trans rfl, by decide⟩
  obtain ⟨hrest, hgive, -⟩ := (expand_course resting ['A']).2.1 3 ['c', 'c'] hresting
  have hstalls := (expand_course stuck ['A']).2.2.1 1 hstuck
  have hendless := (expand_course swapping ['A']).2.2.2 hswapping
  exact ⟨⟨hresting, hrest 3 (by decide), hgive 2 (by decide), hgive (-1) (by decide)⟩,
    ⟨hstuck, hstalls 5, hstalls 0⟩, hswapping, hendless 4⟩

theorem Macro.invocationAt?_object {m : Macro} {t : Text} (hp : m.parameters = none) :
    m.invocationAt? t = (Text.after? m.name t).map fun after => ⟨0, m.name, after, m.body⟩ := by
  rw [invocationAt?, hp]
  cases Text.after? m.name t with
  | none => rfl
  | some after => rfl

theorem Macro.invocation?_object {m : Macro} {t : Text} {i : Invocation} (hp : m.parameters = none)
    (h : m.invocation? t = some i) :
    ∃ before after, t = before ++ (m.name ++ after) ∧ i.result t = before ++ (m.body ++ after) ∧
      i.written = m.name ∧ i.replacement = m.body := by
  rw [invocation?_eq] at h
  obtain ⟨before, rest, j, rfl, hj, rfl⟩ := Invocation.exists_of_first? h
  rw [invocationAt?_object hp] at hj
  obtain ⟨after, ha, rfl⟩ := Option.map_eq_some_iff.1 hj
  obtain rfl := Text.after?_eq_some.1 ha
  refine ⟨before, after, rfl, ?_, rfl, rfl⟩
  simp [Invocation.result, Invocation.shift, Text.splice_eq]

theorem Invocation.isSome_first? {startsAt? : Text → Option Invocation} {t : Text} (before : Text)
    (h : (startsAt? t).isSome) : (first? startsAt? (before ++ t)).isSome := by
  induction before with
  | nil =>
    obtain ⟨i, hi⟩ := Option.isSome_iff_exists.1 h
    rw [List.nil_append, first?_of_startsAt hi]
    rfl
  | cons c before ih =>
    rw [List.cons_append, first?_cons, Option.isSome_or, Option.isSome_map, ih, Bool.or_true]

theorem Macro.isSome_invocation?_object {m : Macro} {t : Text} (hp : m.parameters = none) :
    (m.invocation? t).isSome ↔ m.name <:+: t := by
  constructor
  · intro h
    obtain ⟨i, hi⟩ := Option.isSome_iff_exists.1 h
    obtain ⟨before, after, rfl, -⟩ := invocation?_object hp hi
    exact ⟨before, after, List.append_assoc ..⟩
  · rintro ⟨before, after, rfl⟩
    rw [invocation?_eq, List.append_assoc]
    apply Invocation.isSome_first?
    rw [invocationAt?_object hp, Text.after?_eq_some.2 rfl]
    rfl

namespace Expansion

structure Recursive (s : List Macro) : Prop where
  object : ∀ m ∈ s, m.parameters = none
  returns : ∀ m ∈ s, ∃ m' ∈ s, m'.name <:+: m.body

def Names (s : List Macro) (t : Text) : Prop := ∃ m ∈ s, m.name <:+: t

variable {s ms : List Macro} {line : Text} {m : Macro} {i : Invocation}

theorem firstInvocation?_of_initial {q : Macro × Invocation} (hs : s <+: ms) (h : firstInvocation? s line = some q) :
    firstInvocation? ms line = some q := by
  obtain ⟨rest, rfl⟩ := hs
  rw [firstInvocation?, List.findSome?_append]
  exact Option.or_eq_some_iff.2 (Or.inl h)

theorem invocation?_of_longer {m' : Macro} (hsorted : ms.Pairwise fun a b => b.name.length ≤ a.name.length)
    (hf : firstInvocation? ms line = some (m, i)) (hm' : m' ∈ ms) (hlonger : m.name.length < m'.name.length) :
    m'.invocation? line = none := by
  obtain ⟨l₁, a, l₂, rfl, ha, hl₁⟩ := List.findSome?_eq_some_iff.1 hf
  obtain ⟨j, -, hj⟩ := Option.map_eq_some_iff.1 ha
  cases hj
  rcases List.mem_append.1 hm' with h | h
  · exact Option.map_eq_none_iff.1 (hl₁ m' h)
  · -- From the macro that was found on, no name is longer.
    have hle : m'.name.length ≤ m.name.length := by
      rcases List.mem_cons.1 h with rfl | h
      · exact Nat.le_refl _
      · exact List.rel_of_pairwise_cons (List.pairwise_append.1 hsorted).2.1 h
    omega

theorem Recursive.exists_firstInvocation? (h : Recursive s) (hline : Names s line) :
    ∃ q, firstInvocation? s line = some q := by
  obtain ⟨m, hm, hn⟩ := hline
  rw [← Option.isSome_iff_exists, firstInvocation?, List.findSome?_isSome_iff]
  refine ⟨m, hm, ?_⟩
  rw [Option.isSome_map]
  exact (Macro.isSome_invocation?_object (h.object m hm)).2 hn

theorem Recursive.of_firstInvocation? (h : Recursive s) (hs : s <+: ms) (hline : Names s line)
    (hf : firstInvocation? ms line = some (m, i)) : m ∈ s ∧ Names s (i.result line) := by
  obtain ⟨q, hq⟩ := h.exists_firstInvocation? hline
  obtain rfl : (m, i) = q := Option.some.inj (hf.symm.trans (firstInvocation?_of_initial hs hq))
  obtain ⟨hm, hi⟩ := firstInvocation?_eq_some hq
  obtain ⟨m', hm', hbody⟩ := h.returns m hm
  obtain ⟨before, after, -, hresult, -⟩ := Macro.invocation?_object (h.object m hm) hi
  refine ⟨hm, m', hm', ?_⟩
  rw [hresult]
  exact hbody.trans ⟨before, after, List.append_assoc ..⟩

theorem Recursive.expandWithin_eq (h : Recursive s) (hs : s <+: ms) (left count : Nat) (hline : Names s line) :
    ∃ m ∈ s, ∃ c ≤ count + left + 1, expandWithin ms left count line = .error (.recursion m.name c) := by
  fun_induction expandWithin ms left count line with
  | case1 left count line hf =>
    obtain ⟨q, hq⟩ := h.exists_firstInvocation? hline
    rw [firstInvocation?_of_initial hs hq] at hf
    contradiction
  | case2 left count line m i hf hi => exact ⟨m, (h.of_firstInvocation? hs hline hf).1, count + 1, by omega, rfl⟩
  | case3 count line m i hf hi => exact ⟨m, (h.of_firstInvocation? hs hline hf).1, count + 1, by omega, rfl⟩
  | case4 count line m i hf hi left ih =>
    obtain ⟨m', hm', c, hc, he⟩ := ih (h.of_firstInvocation? hs hline hf).2
    exact ⟨m', hm', c, by omega, he⟩

end Expansion

open Expansion in
/-- Macros that lead back to each other are never left. As longer names are tried first, it is enough to look at the
longest names down to some length. -/
theorem MacroTable.expand_recursive (t : MacroTable) {s : List Macro} (hs : s <+: t.byLength)
    (hobject : ∀ m ∈ s, m.parameters = none) (hreturns : ∀ m ∈ s, ∃ m' ∈ s, m'.name <:+: m.body) {line : Text}
    (hline : ∃ m ∈ s, m.name <:+: line) (n : Int) :
    ∃ m ∈ s, ∃ count ≤ n.toNat + 1, t.expand (.count n) line = .error (.recursion m.name count) := by
  obtain ⟨m, hm, count, hcount, he⟩ := Recursive.expandWithin_eq ⟨hobject, hreturns⟩ hs n.toNat 0 hline
  exact ⟨m, hm, count, by omega, he⟩

theorem MacroTable.expand_recursive_glued :
    let t := ofObjects [("F".toText, "G".toText), ("PING".toText, "<PONGS".toText), ("PONG".toText, "F PING".toText)]
    let s := t.byLength.take 2
    let line := "F xPONGx".toText
    s <+: t.byLength ∧ (∀ m ∈ s, m.parameters = none) ∧ (∀ m ∈ s, ∃ m' ∈ s, m'.name <:+: m.body) ∧
      (∃ m ∈ s, m.name <:+: line) ∧
      ∃ m ∈ s, ∃ count ≤ 3, t.expand (.count 2) line = .error (.recursion m.name count) := by
  intro t s line
  have hs : s <+: t.byLength := List.take_prefix 2 _
  have hobject : ∀ m ∈ s, m.parameters = none := by decide
  have hreturns : ∀ m ∈ s, ∃ m' ∈ s, m'.name <:+: m.body := by decide +kernel
  have hline : ∃ m ∈ s, m.name <:+: line := by decide +kernel
  exact ⟨hs, hobject, hreturns, hline, expand_recursive t hs hobject hreturns hline 2⟩

end ScriptMacros
