import ScriptMacros.Bracket
import ScriptMacros.Proofs.Normalization

namespace ScriptMacros.Bracket

variable {t u v w passed : Text} {n : Nat}

theorem weight_open : weight '(' = 1 := rfl

theorem weight_close : weight ')' = -1 := rfl

theorem weight_of_ne {c : CodePoint} (ho : c ≠ '(') (hc : c ≠ ')') : weight c = 0 := by
  rw [weight, if_neg ho, if_neg hc]

theorem depth_eq_zero (ho : .char '(' ∉ t) (hc : .char ')' ∉ t) : depth t = 0 := by
  induction t with
  | nil => rfl
  | cons c t ih =>
    rw [List.mem_cons, not_or] at ho hc
    rw [depth, weight_of_ne (Ne.symm ho.1) (Ne.symm hc.1), ih ho.2 hc.2]
    rfl

theorem balanced_of_notMem (ho : .char '(' ∉ t) (hc : .char ')' ∉ t) : Balanced t := by
  refine ⟨depth_eq_zero ho hc, ?_⟩
  intro q hq
  exact Int.le_of_eq (depth_eq_zero (fun h => ho (hq.subset h)) fun h => hc (hq.subset h)).symm

theorem Balanced.append (hu : Balanced u) (hv : Balanced v) : Balanced (u ++ v) := by
  refine ⟨by rw [depth_append, hu.1, hv.1]; rfl, ?_⟩
  rintro q ⟨r, hr⟩
  rcases List.append_eq_append_iff.1 hr with ⟨z, hz, -⟩ | ⟨z, rfl, hz⟩
  · exact hu.2 q ⟨z, hz.symm⟩
  · have := hv.2 z ⟨r, hz.symm⟩
    rw [depth_append, hu.1]
    omega

theorem balanced_intercalate {ls : List Text} (h : ∀ a ∈ ls, Balanced a) : Balanced (List.intercalate [','] ls) := by
  induction ls with
  | nil => exact balanced_of_notMem (by simp) (by simp)
  | cons a ls ih =>
    have ha := h a List.mem_cons_self
    cases ls with
    | nil => simpa using ha
    | cons b ls =>
      rw [List.intercalate_cons_cons]
      have hcomma : Balanced [','] := balanced_of_notMem (by decide) (by decide)
      apply (ha.append hcomma).append
      apply ih
      intro c hc
      exact h c (List.mem_cons_of_mem a hc)

theorem opened_eq {c : CodePoint} (hc : c ≠ ')') : ((if c = '(' then n + 1 else n : Nat) : Int) = n + weight c := by
  by_cases ho : c = '('
  · subst ho
    rw [if_pos rfl, weight_open]
    rfl
  · rw [if_neg ho, weight_of_ne ho hc, Int.add_zero]

theorem cutFrom?_append (h : ∀ q, q <+: u → 0 ≤ n + depth q) :
    cutFrom? passed n (u ++ v) = cutFrom? (u.reverse ++ passed) (n + depth u).toNat v := by
  induction u generalizing passed n with
  | nil => simp [depth]
  | cons c u ih =>
    have hc : (0 : Int) ≤ n + weight c := by simpa [depth] using h [c] (by simp)
    have htail : ∀ m : Nat, (m : Int) = n + weight c → cutFrom? (c :: passed) m (u ++ v) =
        cutFrom? ((c :: u).reverse ++ passed) (n + depth (c :: u)).toNat v := by
      intro m hm
      rw [ih ?_]
      · simp [depth, hm, Int.add_assoc]
      · intro q hq
        have := h (c :: q) ((List.prefix_cons_inj c).2 hq)
        rw [depth] at this
        omega
    by_cases hclose : c = ')'
    · subst hclose
      cases n with
      | zero => exact absurd hc (by decide)
      | succ n => exact htail n (by rw [weight_close]; omega)
    · rw [List.cons_append, cutFrom?.eq_def]
      simp only [if_neg hclose]
      exact htail _ (opened_eq hclose)

theorem nonneg_cons {c : CodePoint} (h : ∀ q, q <+: w → 0 ≤ n + weight c + depth q) :
    ∀ q, q <+: c :: w → 0 ≤ (n : Int) + depth q := by
  intro q hq
  cases q with
  | nil => simp [depth]
  | cons d q =>
    obtain ⟨rfl, hpre⟩ := List.cons_prefix_cons.1 hq
    have := h q hpre
    rw [depth]
    omega

theorem cutFrom?_eq_some (h : cutFrom? passed n t = some (u, v)) :
    ∃ w, u = passed.reverse ++ w ∧ t = w ++ .char ')' :: v ∧ n + depth w = 0 ∧ ∀ q, q <+: w → 0 ≤ n + depth q := by
  fun_induction cutFrom? passed n t with
  | case1 => contradiction
  | case2 passed t =>
    obtain ⟨rfl, rfl⟩ := Prod.mk.inj (Option.some.inj h)
    exact ⟨[], by simp, rfl, rfl, by simp [depth]⟩
  | case3 passed t n ih =>
    obtain ⟨w, hu, ht, hd, hq⟩ := ih h
    refine ⟨.char ')' :: w, by simpa using hu, by rw [ht]; rfl, ?_, nonneg_cons fun q hpre => ?_⟩
    · rw [depth, weight_close]
      omega
    · have := hq q hpre
      rw [weight_close]
      omega
  | case4 passed n c t hc ih =>
    obtain ⟨w, hu, ht, hd, hq⟩ := ih h
    rw [opened_eq hc] at hd
    refine ⟨c :: w, by simpa using hu, by rw [ht]; rfl, ?_, nonneg_cons fun q hpre => ?_⟩
    · rw [depth]
      omega
    · rw [← opened_eq hc]
      exact hq q hpre

theorem nonneg_of_cutFrom?_eq_none (h : cutFrom? passed n t = none) : ∀ q, q <+: t → 0 ≤ n + depth q := by
  fun_induction cutFrom? passed n t with
  | case1 =>
    intro q hq
    obtain rfl := List.prefix_nil.1 hq
    simp [depth]
  | case2 => contradiction
  | case3 passed t n ih =>
    refine nonneg_cons fun q hq => ?_
    have := ih h q hq
    rw [weight_close]
    omega
  | case4 passed n c t hc ih =>
    refine nonneg_cons fun q hq => ?_
    rw [← opened_eq hc]
    exact ih h q hq

theorem cut?_eq_some_iff : cut? t = some (u, v) ↔ t = u ++ .char ')' :: v ∧ Balanced u := by
  constructor
  · intro h
    obtain ⟨w, rfl, ht, hd, hq⟩ := cutFrom?_eq_some h
    exact ⟨ht, by simpa using hd, fun q hp => by simpa using hq q hp⟩
  · rintro ⟨rfl, hd, hq⟩
    rw [cut?, cutFrom?_append fun q hp => by simpa using hq q hp, hd]
    simp [cutFrom?]

instance Balanced.decidable (t : Text) : Decidable (Balanced t) :=
  decidable_of_iff (cut? (t ++ [.char ')']) = some (t, [])) (cut?_eq_some_iff.trans (and_iff_right rfl))

theorem closing?_append (hu : Balanced u) : closing? (u ++ .char ')' :: v) = some u.length := by
  rw [closing?, cut?_eq_some_iff.2 ⟨rfl, hu⟩]
  rfl

section

variable {stop : CodePoint} {p : Protection}

theorem readFrom_append (hs : stop ∉ w) (ho : p.groups = true → .char '(' ∉ w) (he : p.escapes = false) :
    readFrom stop p 0 false (w ++ t) = w ++ readFrom stop p 0 false t := by
  induction w with
  | nil => rfl
  | cons c w ih =>
    rw [List.mem_cons, not_or] at hs
    have hg : ¬(p.groups ∧ c = '(') := fun ⟨hp, hc⟩ => ho hp (hc ▸ List.mem_cons_self)
    have hc : ¬(c = stop ∧ false = false) := fun h => hs.1 h.1.symm
    rw [List.cons_append, readFrom, if_neg hc]
    simp only [if_neg hg, he, Bool.false_and]
    rw [ih hs.2 fun hp hm => ho hp (List.mem_cons_of_mem c hm)]
    rfl

theorem readFrom_copied : readFrom stop p w.length false (w ++ t) = w ++ readFrom stop p 0 false t := by
  induction w with
  | nil => rfl
  | cons c w ih =>
    rw [List.cons_append, List.length_cons, readFrom, ih]
    rfl

theorem readFrom_group {escaped : Bool} (hu : Balanced u) (hc : ¬(.char '(' = stop ∧ escaped = false))
    (hg : p.groups = true) :
    readFrom stop p 0 escaped (.char '(' :: (u ++ .char ')' :: t)) =
      .char '(' :: (u ++ .char ')' :: readFrom stop p 0 false t) := by
  have hlen : u.length + 1 = (u ++ [CodePoint.char ')']).length := by simp
  have hsplit : u ++ .char ')' :: t = u ++ [.char ')'] ++ t := by simp
  rw [readFrom, if_neg hc]
  simp only [hg, closing?_append hu, Option.elim_some]
  have hopen : (p.escapes && CodePoint.char '(' == '\\') = false := by simp
  rw [if_pos ⟨trivial, trivial⟩, hopen, hlen, hsplit, readFrom_copied]
  simp

theorem readFrom_of_notMem {escaped : Bool} (hs : stop ∉ t) : readFrom stop p n escaped t = t := by
  induction t generalizing n escaped with
  | nil => cases n <;> rfl
  | cons c t ih =>
    rw [List.mem_cons, not_or] at hs
    cases n with
    | succ n => rw [readFrom, ih hs.2]
    | zero =>
      have hc : ¬(c = stop ∧ escaped = false) := fun h => hs.1 h.1.symm
      rw [readFrom, if_neg hc]
      exact congrArg _ (ih hs.2)

end

def SingleArgument (a : Text) : Prop := ∀ q r, a = q ++ .char ',' :: r → depth q ≠ 0

theorem singleArgument_iff {a : Text} :
    SingleArgument a ↔ ∀ i, i < a.length → a[i]? = some (.char ',') → depth (a.take i) ≠ 0 := by
  constructor
  · intro h i _ hc
    exact h (a.take i) (a.drop (i + 1)) (eq_append_of_getElem? hc)
  · rintro h q r rfl
    simpa using h q.length (by simp) (by simp)

instance SingleArgument.decidable (a : Text) : Decidable (SingleArgument a) :=
  decidable_of_iff _ singleArgument_iff.symm

theorem piecesFrom_append (passed : Text) {level : Int} (h : ∀ q r, u = q ++ .char ',' :: r → level + depth q ≠ 0) :
    piecesFrom passed level (u ++ v) = piecesFrom (u.reverse ++ passed) (level + depth u) v := by
  induction u generalizing passed level with
  | nil => simp [depth]
  | cons c u ih =>
    have hc : ¬(c = ',' ∧ level = 0) := by
      rintro ⟨rfl, rfl⟩
      exact h [] u rfl rfl
    rw [List.cons_append, piecesFrom, if_neg hc, ih _ ?_]
    · simp [depth, Int.add_assoc]
    · rintro q r rfl
      have := h (c :: q) r rfl
      rwa [depth, ← Int.add_assoc] at this

theorem piecesFrom_intercalate {a : Text} {args : List Text}
    (h : ∀ b ∈ a :: args, Balanced b ∧ SingleArgument b) :
    piecesFrom [] 0 (List.intercalate [','] (a :: args)) = a :: args := by
  induction args generalizing a with
  | nil =>
    obtain ⟨hb, hs⟩ := h a List.mem_cons_self
    rw [List.intercalate_singleton, ← List.append_nil a, piecesFrom_append [] fun q r he => by simpa using hs q r he]
    simp [piecesFrom]
  | cons b args ih =>
    obtain ⟨hb, hs⟩ := h a List.mem_cons_self
    rw [List.intercalate_cons_cons, List.append_assoc, List.singleton_append,
      piecesFrom_append [] fun q r he => by simpa using hs q r he, hb.1, piecesFrom]
    simp [ih fun c hc => h c (List.mem_cons_of_mem a hc)]

theorem arguments_of_pieces {a : Text} {args : List Text} (h : ∀ b ∈ a :: args, Balanced b ∧ SingleArgument b)
    (hblank : a.trim ≠ [] ∨ args ≠ []) :
    arguments (List.intercalate [','] (a :: args)) = (a :: args).map Text.trim := by
  have hne : Text.trim ([CodePoint.char ','].intercalate (a :: args)) ≠ [] := by
    cases args with
    | nil =>
      rw [List.intercalate_singleton]
      exact hblank.resolve_right (· rfl)
    | cons b args =>
      have hcomma : .char ',' ∈ [CodePoint.char ','].intercalate (a :: b :: args) := by
        rw [List.intercalate_cons_cons]
        simp
      apply List.ne_nil_of_mem
      exact Text.mem_trim hcomma (by decide)
  rw [arguments, if_neg hne, piecesFrom_intercalate h]

theorem arguments_intercalate {args : List Text}
    (h : ∀ a ∈ args, a.trim = a ∧ Balanced a ∧ SingleArgument a) (hne : args ≠ [[]]) :
    arguments (List.intercalate [','] args) = args := by
  cases args with
  | nil => rfl
  | cons a args =>
    have hblank : a.trim ≠ [] ∨ args ≠ [] := by
      rw [(h a List.mem_cons_self).1, ← not_and_or]
      rintro ⟨rfl, rfl⟩
      exact hne rfl
    rw [arguments_of_pieces (fun b hb => (h b hb).2) hblank]
    exact map_eq_self fun b hb => (h b hb).1

end ScriptMacros.Bracket
