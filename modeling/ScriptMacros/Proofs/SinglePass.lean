import Mathlib.Data.List.Infix
import Mathlib.Data.List.MinMax
import Mathlib.Data.List.Nodup
import ScriptMacros.Proofs.Rescanning

namespace ScriptMacros

abbrev Glossary := List (Text × Text)

namespace Glossary

inductive Part where
  | letter (c : CodePoint)
  | word (w body : Text)

def Part.replaced : Part → Text
  | letter c => [c]
  | word _ body => body

def Part.isWord : Part → Bool
  | letter _ => false
  | word _ _ => true

section

variable (d : Glossary)

def longestAt? (t : Text) : Option (Text × Text) :=
  (d.filter fun e => e.1.isPrefixOf t).argmax fun e => e.1.length

def partsFrom : (skipped : Nat) → Text → List Part
  | _, [] => []
  | n + 1, _ :: t => partsFrom n t
  | 0, c :: t =>
    match d.longestAt? (c :: t) with
    | none => .letter c :: partsFrom 0 t
    | some (w, body) => .word w body :: partsFrom (w.length - 1) t

def parts (t : Text) : List Part := d.partsFrom 0 t

def replaceAll (t : Text) : Text := (d.parts t).flatMap Part.replaced

def replacements (t : Text) : Nat := (d.parts t).countP Part.isWord

/-- Neither words nor bodies are empty, bodies have no character of any word, and no word ends in what another word,
or the same, begins with. -/
structure Hygienic : Prop where
  word_ne_nil : ∀ e ∈ d, e.1 ≠ []
  body_ne_nil : ∀ e ∈ d, e.2 ≠ []
  foreign : ∀ e ∈ d, ∀ e' ∈ d, ∀ c ∈ e.2, c ∉ e'.1
  unlinked : ∀ e ∈ d, ∀ e' ∈ d, ∀ s, s ≠ [] → s <:+ e.1 → s ≠ e.1 → s <+: e'.1 → s = e'.1

theorem hygienic_iff : d.Hygienic ↔ (∀ e ∈ d, e.1 ≠ []) ∧ (∀ e ∈ d, e.2 ≠ []) ∧
    (∀ e ∈ d, ∀ e' ∈ d, e.2.all (· ∉ e'.1)) ∧
      ∀ e ∈ d, ∀ e' ∈ d, ∀ s ∈ e.1.tails, s ≠ [] → s ≠ e.1 → s <+: e'.1 → s = e'.1 := by
  constructor
  · intro h
    refine ⟨h.word_ne_nil, h.body_ne_nil, ?_, ?_⟩
    · intro e he e' he'
      simpa using h.foreign e he e' he'
    · intro e he e' he' s hs hn
      exact h.unlinked e he e' he' s hn ((List.mem_tails s e.1).1 hs)
  · rintro ⟨hword, hbody, hforeign, hunlinked⟩
    refine ⟨hword, hbody, ?_, ?_⟩
    · intro e he e' he'
      simpa using hforeign e he e' he'
    · intro e he e' he' s hn hs
      exact hunlinked e he e' he' s ((List.mem_tails s e.1).2 hs) hn

instance Hygienic.decidable : Decidable d.Hygienic := decidable_of_iff _ d.hygienic_iff.symm

def Apart (u r : Text) : Prop := ∀ s, s <:+ u → s ≠ [] → ∀ e ∈ d, e.1 <+: s ++ r → e.1 <+: s

end

variable {d : Glossary} {e : Text × Text} {t u r before after : Text} {c : CodePoint} {n : Nat}

theorem flatMap_letters (t : Text) : (t.map Part.letter).flatMap Part.replaced = t := by
  induction t with
  | nil => rfl
  | cons c t ih => exact congrArg (c :: ·) ih

theorem countP_letters (t : Text) : (t.map Part.letter).countP Part.isWord = 0 := by
  induction t with
  | nil => rfl
  | cons c t ih => exact ih

theorem mem_longestAt? (h : d.longestAt? t = some e) : e ∈ d ∧ e.1 <+: t := by
  obtain ⟨hd, hp⟩ := List.mem_filter.1 (List.argmax_mem h)
  exact ⟨hd, List.isPrefixOf_iff_prefix.1 hp⟩

theorem longestAt?_eq_none_iff : d.longestAt? t = none ↔ ∀ e ∈ d, ¬e.1 <+: t := by
  rw [longestAt?, List.argmax_eq_none, List.filter_eq_nil_iff]
  simp only [List.isPrefixOf_iff_prefix]

theorem longestAt?_congr (h : ∀ e ∈ d, e.1 <+: t ↔ e.1 <+: u) : d.longestAt? t = d.longestAt? u := by
  rw [longestAt?, longestAt?]
  congr 1
  apply List.filter_congr
  intro e he
  rw [Bool.eq_iff_iff, List.isPrefixOf_iff_prefix, List.isPrefixOf_iff_prefix]
  exact h e he

theorem longestAt?_eq_some (hd : (d.map (·.1)).Nodup) (he : e ∈ d) (hp : e.1 <+: t)
    (hmax : ∀ e' ∈ d, e'.1 <+: t → e'.1.length ≤ e.1.length) : d.longestAt? t = some e := by
  have hmem : e ∈ d.filter fun e => e.1.isPrefixOf t := List.mem_filter.2 ⟨he, List.isPrefixOf_iff_prefix.2 hp⟩
  cases h : d.longestAt? t with
  | none => exact absurd hp (longestAt?_eq_none_iff.1 h e he)
  | some e' =>
    obtain ⟨he', hp'⟩ := mem_longestAt? h
    have hle : e.1.length ≤ e'.1.length := List.le_of_mem_argmax (f := fun e => e.1.length) hmem h
    have hlen := Nat.le_antisymm (hmax e' he' hp') hle
    have hword : e'.1 = e.1 := (List.prefix_of_prefix_length_le hp' hp (Nat.le_of_eq hlen)).eq_of_length hlen
    rw [List.inj_on_of_nodup_map hd he' he hword]

theorem partsFrom_length (s t : Text) : d.partsFrom s.length (s ++ t) = d.parts t := by
  induction s with
  | nil => rfl
  | cons c s ih => exact ih

theorem parts_cons_of_none (h : ∀ e ∈ d, ¬e.1 <+: c :: t) : d.parts (c :: t) = .letter c :: d.parts t := by
  rw [parts, partsFrom, longestAt?_eq_none_iff.2 h]
  rfl

theorem parts_word (hne : e.1 ≠ []) (h : d.longestAt? (e.1 ++ t) = some e) :
    d.parts (e.1 ++ t) = .word e.1 e.2 :: d.parts t := by
  obtain ⟨w, body⟩ := e
  obtain ⟨c, w, rfl⟩ := List.exists_cons_of_ne_nil hne
  rw [parts]
  dsimp only [List.cons_append] at h ⊢
  rw [partsFrom, h]
  exact congrArg _ (partsFrom_length w t)

theorem Apart.tail (h : d.Apart (c :: u) r) : d.Apart u r :=
  fun s hs => h s (hs.trans (List.suffix_cons c u))

theorem partsFrom_append (h : d.Apart u r) (hn : n ≤ u.length) :
    d.partsFrom n (u ++ r) = d.partsFrom n u ++ d.parts r := by
  induction u generalizing n with
  | nil =>
    obtain rfl : n = 0 := Nat.le_zero.1 hn
    cases r <;> rfl
  | cons c u ih =>
    cases n with
    | succ n => exact ih h.tail (Nat.le_of_succ_le_succ hn)
    | zero =>
      have hlongest : d.longestAt? (c :: u ++ r) = d.longestAt? (c :: u) := by
        apply longestAt?_congr
        intro e he
        exact ⟨h _ List.suffix_rfl (List.cons_ne_nil c u) e he, fun hp => hp.trans (List.prefix_append _ _)⟩
      rw [List.cons_append] at hlongest ⊢
      rw [partsFrom, partsFrom, hlongest]
      cases hl : d.longestAt? (c :: u) with
      | none => exact congrArg _ (ih h.tail (Nat.zero_le _))
      | some e =>
        have hlen := (mem_longestAt? hl).2.length_le
        rw [List.length_cons] at hlen
        exact congrArg _ (ih h.tail (by omega))

theorem parts_append (h : d.Apart u r) : d.parts (u ++ r) = d.parts u ++ d.parts r :=
  partsFrom_append h (Nat.zero_le _)

namespace Hygienic

theorem not_prefix (h : d.Hygienic) (hc : ∀ e ∈ d, c ∉ e.1) (he : e ∈ d) : ¬e.1 <+: c :: t := by
  intro hp
  obtain ⟨a, w, hw⟩ := List.exists_cons_of_ne_nil (h.word_ne_nil e he)
  rw [hw, List.cons_prefix_cons] at hp
  exact hc e he (by rw [hw, hp.1]; exact List.mem_cons_self)

theorem apart_foreign (hc : ∀ e ∈ d, c ∉ e.1) : d.Apart u (c :: r) := by
  intro s _ _ e he hp
  rcases prefix_append_cases hp with hs | ⟨q, hq, hw, hr⟩
  · exact hs
  · obtain ⟨a, q, rfl⟩ := List.exists_cons_of_ne_nil hq
    rw [List.cons_prefix_cons] at hr
    exact absurd (by rw [hw, hr.1]; simp) (hc e he)

theorem apart_longest (h : d.Hygienic) (he : e ∈ d)
    (hmax : ∀ e' ∈ d, e'.1 <:+: u ++ (e.1 ++ r) → e'.1.length ≤ e.1.length) : d.Apart u (e.1 ++ r) := by
  intro s hs hne e' he' hp
  rcases prefix_append_cases hp with hp | ⟨q, hq, hw, hr⟩
  · exact hp
  · have hinfix : e'.1 <:+: u ++ (e.1 ++ r) := by
      obtain ⟨v, rfl⟩ := hs
      rw [List.append_assoc]
      exact hp.isInfix.trans (List.suffix_append v _).isInfix
    have hlen := hmax e' he' hinfix
    have hpos := List.length_pos_of_ne_nil hne
    rw [hw, List.length_append] at hlen
    have hq' : q <+: e.1 := List.prefix_of_prefix_length_le hr (List.prefix_append _ _) (by omega)
    have hself : q ≠ e'.1 := by
      intro heq
      rw [← heq] at hw
      have := congrArg List.length hw
      rw [List.length_append] at this
      omega
    obtain rfl := h.unlinked e' he' e he q hq ⟨s, hw.symm⟩ hself hq'
    omega

theorem parts_foreign (h : d.Hygienic) {body : Text} (hb : ∀ c ∈ body, ∀ e ∈ d, c ∉ e.1) :
    d.parts (body ++ r) = body.map .letter ++ d.parts r := by
  induction body with
  | nil => rfl
  | cons c body ih =>
    obtain ⟨hc, hb⟩ := List.forall_mem_cons.1 hb
    rw [List.cons_append, parts_cons_of_none fun e he => h.not_prefix hc he, ih hb]
    rfl

theorem parts_replaced (h : d.Hygienic) (he : e ∈ d) :
    d.parts (before ++ (e.2 ++ after)) = d.parts before ++ (e.2.map .letter ++ d.parts after) := by
  have hforeign : ∀ c ∈ e.2, ∀ e' ∈ d, c ∉ e'.1 := fun c hc e' he' => h.foreign e he e' he' c hc
  have hapart : d.Apart before (e.2 ++ after) := by
    obtain ⟨c, body, hbody⟩ := List.exists_cons_of_ne_nil (h.body_ne_nil e he)
    rw [hbody] at hforeign ⊢
    exact apart_foreign (hforeign c List.mem_cons_self)
  rw [parts_append hapart, h.parts_foreign hforeign]

theorem parts_longest (h : d.Hygienic) (hd : (d.map (·.1)).Nodup) (he : e ∈ d)
    (hmax : ∀ e' ∈ d, e'.1 <:+: before ++ (e.1 ++ after) → e'.1.length ≤ e.1.length) :
    d.parts (before ++ (e.1 ++ after)) = d.parts before ++ .word e.1 e.2 :: d.parts after := by
  have hlongest : d.longestAt? (e.1 ++ after) = some e := by
    apply longestAt?_eq_some hd he (List.prefix_append _ _)
    intro e' he' hp
    exact hmax e' he' (hp.isInfix.trans (List.suffix_append before _).isInfix)
  rw [parts_append (h.apart_longest he hmax), parts_word (h.word_ne_nil e he) hlongest]

theorem replaceAll_step (h : d.Hygienic) (hd : (d.map (·.1)).Nodup) (he : e ∈ d)
    (hmax : ∀ e' ∈ d, e'.1 <:+: before ++ (e.1 ++ after) → e'.1.length ≤ e.1.length) :
    d.replaceAll (before ++ (e.2 ++ after)) = d.replaceAll (before ++ (e.1 ++ after)) ∧
      d.replacements (before ++ (e.1 ++ after)) = d.replacements (before ++ (e.2 ++ after)) + 1 := by
  rw [replaceAll, replaceAll, replacements, replacements, h.parts_longest hd he hmax, h.parts_replaced he]
  refine ⟨?_, ?_⟩
  · rw [List.flatMap_append, List.flatMap_append, flatMap_letters, List.flatMap_append, List.flatMap_cons]
    rfl
  · rw [List.countP_append, List.countP_append, List.countP_append, countP_letters, List.countP_cons]
    simp only [Part.isWord, if_true]
    omega

end Hygienic

theorem parts_of_not_infix (h : ∀ e ∈ d, ¬e.1 <:+: t) : d.parts t = t.map .letter := by
  induction t with
  | nil => rfl
  | cons c t ih =>
    rw [parts_cons_of_none fun e he hp => h e he hp.isInfix, ih]
    · rfl
    · exact fun e he hi => h e he (hi.trans (List.suffix_cons c t).isInfix)

end Glossary

def MacroTable.glossary (t : MacroTable) : Glossary := t.macros.map fun m => (m.name, m.body)

namespace Expansion

structure Serves (ms : List Macro) (d : Glossary) : Prop where
  object : ∀ m ∈ ms, m.parameters = none
  entries : (ms.map fun m => (m.name, m.body)).Perm d
  sorted : ms.Pairwise fun a b => b.name.length ≤ a.name.length

variable {ms : List Macro} {d : Glossary} {line : Text} {m : Macro} {i : Invocation} {left count : Nat}

theorem Serves.exists_macro (h : Serves ms d) {e : Text × Text} (he : e ∈ d) :
    ∃ m ∈ ms, m.name = e.1 ∧ m.body = e.2 := by
  obtain ⟨m, hm, rfl⟩ := List.mem_map.1 (h.entries.mem_iff.2 he)
  exact ⟨m, hm, rfl, rfl⟩

theorem Serves.mem_glossary (h : Serves ms d) (hm : m ∈ ms) : (m.name, m.body) ∈ d :=
  h.entries.mem_iff.1 (List.mem_map.2 ⟨m, hm, rfl⟩)

theorem Serves.not_infix (h : Serves ms d) (hf : firstInvocation? ms line = none) : ∀ e ∈ d, ¬e.1 <:+: line := by
  intro e he hi
  obtain ⟨m, hm, hname, -⟩ := h.exists_macro he
  have hnone := Option.map_eq_none_iff.1 (List.findSome?_eq_none_iff.1 hf m hm)
  have hsome := (Macro.isSome_invocation?_object (h.object m hm)).2 (hname ▸ hi)
  rw [hnone] at hsome
  contradiction

theorem Serves.longest (h : Serves ms d) (hf : firstInvocation? ms line = some (m, i)) :
    ∀ e ∈ d, e.1 <:+: line → e.1.length ≤ m.name.length := by
  intro e he hi
  obtain ⟨m', hm', hname, -⟩ := h.exists_macro he
  rw [← hname] at hi ⊢
  by_contra hlonger
  have hsome := (Macro.isSome_invocation?_object (h.object m' hm')).2 hi
  rw [invocation?_of_longer h.sorted hf hm' (Nat.lt_of_not_le hlonger)] at hsome
  contradiction

theorem Serves.step (h : Serves ms d) (hyg : d.Hygienic) (hd : (d.map (·.1)).Nodup)
    (hf : firstInvocation? ms line = some (m, i)) : i.replacement ≠ i.written ∧
      d.replaceAll (i.result line) = d.replaceAll line ∧ d.replacements line = d.replacements (i.result line) + 1 := by
  obtain ⟨hm, hi⟩ := firstInvocation?_eq_some hf
  have he := h.mem_glossary hm
  have hlongest := h.longest hf
  obtain ⟨before, after, rfl, hresult, hwritten, hreplacement⟩ := Macro.invocation?_object (h.object m hm) hi
  refine ⟨?_, ?_⟩
  · rw [hwritten, hreplacement]
    intro heq
    obtain ⟨c, body, hbody⟩ := List.exists_cons_of_ne_nil (hyg.body_ne_nil _ he)
    have hc : c ∈ m.body := by
      rw [show m.body = c :: body from hbody]
      exact List.mem_cons_self
    exact hyg.foreign _ he _ he c hc (heq ▸ hc)
  · rw [hresult]
    exact hyg.replaceAll_step hd he hlongest

theorem Serves.expandWithin_eq (h : Serves ms d) (hyg : d.Hygienic) (hd : (d.map (·.1)).Nodup)
    (hleft : d.replacements line ≤ left) : expandWithin ms left count line = .ok (d.replaceAll line) := by
  fun_induction expandWithin ms left count line with
  | case1 left count line hf =>
    rw [Glossary.replaceAll, Glossary.parts_of_not_infix (h.not_infix hf), Glossary.flatMap_letters]
  | case2 left count line m i hf hi => exact absurd hi (h.step hyg hd hf).1
  | case3 count line m i hf hi =>
    obtain ⟨-, -, hcount⟩ := h.step hyg hd hf
    omega
  | case4 count line m i hf hi left ih =>
    obtain ⟨-, hall, hcount⟩ := h.step hyg hd hf
    rw [← hall]
    exact ih (by omega)

end Expansion

/-- Where names cannot run into each other, and bodies not into names, replacing macros one after another comes to
one pass over the line. Only the names and their bodies matter, not the order in which they stand in the table. -/
theorem MacroTable.expand_eq_replaceAll {t t' : MacroTable} (h : t'.glossary.Perm t.glossary)
    (hobject : ∀ m ∈ t'.macros, m.parameters = none) (hyg : t.glossary.Hygienic) {line : Text} {n : Int}
    (hn : (t.glossary.replacements line : Int) ≤ n) :
    t'.expand (.count n) line = .ok (t.glossary.replaceAll line) := by
  have hserves : Expansion.Serves t'.byLength t.glossary := by
    refine ⟨?_, ?_, longestFirst_pairwise _ _⟩
    · intro m hm
      exact hobject m (mem_longestFirst.1 hm)
    · exact ((longestFirst_perm _ _).map _).trans h
  have hd : (t.glossary.map (·.1)).Nodup := by
    rw [glossary, List.map_map]
    exact t.nodup
  change Expansion.expandWithin t'.byLength n.toNat 0 line = _
  exact hserves.expandWithin_eq hyg hd (by omega)

theorem MacroTable.expand_eq_replaceAll_nested :
    let t := ofObjects [("AB".toText, "1".toText), ("EF".toText, "2".toText), ("XABY".toText, "34".toText),
      ("ABC".toText, " ".toText)]
    let t' := ofObjects [("ABC".toText, " ".toText), ("EF".toText, "2".toText), ("XABY".toText, "34".toText),
      ("AB".toText, "1".toText)]
    let line := "XABYABCABEF.XAB XABABC".toText
    t'.glossary.Perm t.glossary ∧ (∀ m ∈ t'.macros, m.parameters = none) ∧ t.glossary.Hygienic ∧
      t.glossary.replacements line = 7 ∧ t'.expand (.count 7) line = .ok "34 12.X1 X1 ".toText := by
  intro t t' line
  have hperm : t'.glossary.Perm t.glossary := by decide +kernel
  have hobject : ∀ m ∈ t'.macros, m.parameters = none := by decide
  have hyg : t.glossary.Hygienic := by decide +kernel
  have hcount : t.glossary.replacements line = 7 := by decide +kernel
  have hall : t.glossary.replaceAll line = "34 12.X1 X1 ".toText := by decide +kernel
  have h : t'.expand (.count 7) line = .ok (t.glossary.replaceAll line) := by
    apply expand_eq_replaceAll hperm hobject hyg
    rw [hcount]
    decide
  exact ⟨hperm, hobject, hyg, hcount, hall ▸ h⟩

end ScriptMacros
