import Mathlib.Data.List.Forall2
import Mathlib.Data.Nat.Count
import ScriptMacros.Proofs.Balance
import ScriptMacros.Proofs.Writing

namespace ScriptMacros.Bracket

variable {t u v a piece passed : Text} {args pieces : List Text} {c : CodePoint} {level : Int}

theorem singleArgument_of_notMem (h : .char ',' ∉ a) : SingleArgument a := by
  rintro q r rfl
  exact absurd (by simp) h

theorem SingleArgument.append (hu : SingleArgument u) (hd : depth u = 0) (hv : SingleArgument v) :
    SingleArgument (u ++ v) := by
  intro q r he
  rcases List.append_eq_append_iff.1 he with ⟨z, rfl, hz⟩ | ⟨z, rfl, hz⟩
  · rw [depth_append, hd, Int.zero_add]
    exact hv z r hz
  · cases z with
    | nil => exact absurd rfl (hv [] r hz.symm)
    | cons d z =>
      obtain ⟨rfl, -⟩ := List.cons.inj hz
      exact hu q z rfl

theorem SingleArgument.left (h : SingleArgument (u ++ v)) : SingleArgument u := by
  rintro q r rfl
  exact h q (r ++ v) (by simp)

theorem SingleArgument.right (h : SingleArgument (u ++ v)) (hd : depth u = 0) : SingleArgument v := by
  rintro q r rfl
  have := h (u ++ q) r (by simp)
  rwa [depth_append, hd, Int.zero_add] at this

theorem SingleArgument.concat (h : SingleArgument u) (hc : ¬(c = ',' ∧ depth u = 0)) : SingleArgument (u ++ [c]) := by
  intro q r he
  rcases List.eq_nil_or_concat r with rfl | ⟨r, d, rfl⟩
  · obtain ⟨rfl, hcomma⟩ := List.append_inj' he rfl
    exact fun hd => hc ⟨(List.cons.inj hcomma).1, hd⟩
  · rw [List.concat_eq_append, ← List.cons_append, ← List.append_assoc] at he
    exact h q r (List.append_inj' he rfl).1

theorem singleArgument_of_blank (h : ∀ c ∈ t, Text.isBlank c = true) : SingleArgument t :=
  singleArgument_of_notMem fun hm => absurd (h _ hm) (by decide)

theorem SingleArgument.trim (h : SingleArgument t) : SingleArgument t.trim := by
  obtain ⟨a, b, ht, ha, hb⟩ := Text.exists_eq_append_trim t
  rw [ht] at h
  exact (h.right (depth_of_blank ha)).left

inductive Padded (a : Text) : Text → Prop
  | intro (before after : Text) : (∀ c ∈ before, Text.isBlank c = true) → (∀ c ∈ after, Text.isBlank c = true) →
      Padded a (before ++ (a ++ after))

theorem Padded.trim_eq (h : Padded a piece) (ha : a.Trimmed) : piece.trim = a := by
  cases h with
  | intro before after hbefore hafter => exact Text.trim_padded hbefore ha hafter

theorem Padded.balanced (h : Padded a piece) (ha : Balanced a) : Balanced piece := by
  cases h with
  | intro before after hbefore hafter => exact (balanced_of_blank hbefore).append (ha.append (balanced_of_blank hafter))

theorem Padded.singleArgument (h : Padded a piece) (hd : Balanced a) (ha : SingleArgument a) :
    SingleArgument piece := by
  cases h with
  | intro before after hbefore hafter =>
    exact (singleArgument_of_blank hbefore).append (depth_of_blank hbefore)
      (ha.append hd.1 (singleArgument_of_blank hafter))

theorem map_trim_of_padded (h : List.Forall₂ Padded args pieces) (hargs : ∀ a ∈ args, a.Trimmed) :
    pieces.map Text.trim = args := by
  induction h with
  | nil => rfl
  | cons hp _ ih =>
    obtain ⟨ha, hargs⟩ := List.forall_mem_cons.1 hargs
    rw [List.map_cons, hp.trim_eq ha, ih hargs]

theorem forall_mem_of_padded (h : List.Forall₂ Padded args pieces)
    (hargs : ∀ a ∈ args, Balanced a ∧ SingleArgument a) : ∀ b ∈ pieces, Balanced b ∧ SingleArgument b := by
  induction h with
  | nil => simp
  | cons hp _ ih =>
    obtain ⟨⟨hbalanced, hsingle⟩, hargs⟩ := List.forall_mem_cons.1 hargs
    exact List.forall_mem_cons.2 ⟨⟨hp.balanced hbalanced, hp.singleArgument hbalanced hsingle⟩, ih hargs⟩

theorem arguments_of_padded (h : List.Forall₂ Padded args pieces)
    (hargs : ∀ a ∈ args, a.Trimmed ∧ Balanced a ∧ SingleArgument a) (hne : args ≠ [[]]) :
    arguments (List.intercalate [','] pieces) = args := by
  have hpieces := forall_mem_of_padded h fun a ha => (hargs a ha).2
  have htrim := map_trim_of_padded h fun a ha => (hargs a ha).1
  cases pieces with
  | nil => exact htrim
  | cons piece pieces =>
    rw [arguments_of_pieces hpieces, htrim]
    rw [← htrim, List.map_cons] at hne
    by_cases hnil : pieces = []
    · subst hnil
      exact Or.inl fun he => hne (by rw [he]; rfl)
    · exact Or.inr hnil

def outerCommas (t : Text) : Nat := Nat.count (fun i => t[i]? = some (.char ',') ∧ depth (t.take i) = 0) t.length

theorem length_piecesFrom (passed : Text) (level : Int) (t : Text) : (piecesFrom passed level t).length =
    Nat.count (fun i => t[i]? = some (.char ',') ∧ level + depth (t.take i) = 0) t.length + 1 := by
  induction t generalizing passed level with
  | nil => rfl
  | cons c t ih =>
    rw [piecesFrom, List.length_cons, Nat.count_succ']
    by_cases hc : c = ',' ∧ level = 0
    · obtain ⟨rfl, rfl⟩ := hc
      simp [ih, depth, show weight ',' = 0 from rfl]
    · simp [ih, depth, hc, Int.add_assoc]

theorem singleArgument_of_mem_piecesFrom (h : SingleArgument passed.reverse) (hlevel : level = depth passed.reverse)
    (hu : u ∈ piecesFrom passed level t) : SingleArgument u := by
  fun_induction piecesFrom passed level t with
  | case1 passed level =>
    obtain rfl := List.mem_singleton.1 hu
    exact h
  | case2 passed level c t hc ih =>
    rcases List.mem_cons.1 hu with rfl | hu
    · exact h
    · exact ih (singleArgument_of_notMem (by simp)) rfl hu
  | case3 passed level c t hc ih =>
    apply ih _ _ hu
    · rw [List.reverse_cons]
      apply h.concat
      rintro ⟨hcomma, hd⟩
      exact hc ⟨hcomma, hlevel.trans hd⟩
    · simp [depth_append, hlevel, depth]

theorem length_arguments (h : ∃ c ∈ t, Text.isBlank c = false) : (arguments t).length = outerCommas t + 1 := by
  obtain ⟨c, hc, hblank⟩ := h
  rw [arguments, if_neg (List.ne_nil_of_mem (Text.mem_trim hc hblank)), List.length_map, length_piecesFrom, outerCommas]
  simp only [Int.zero_add]

theorem singleArgument_of_mem_arguments (ha : a ∈ arguments t) : SingleArgument a := by
  obtain ⟨piece, hpiece, rfl⟩ := exists_of_mem_arguments ha
  exact (singleArgument_of_mem_piecesFrom (singleArgument_of_notMem (by simp)) rfl hpiece).trim

theorem trimmed_of_mem_arguments (ha : a ∈ arguments t) : a.Trimmed := by
  obtain ⟨piece, -, rfl⟩ := exists_of_mem_arguments ha
  exact Text.trimmed_trim piece

/-- Arguments that are trimmed, balanced and without commas outside brackets are the arguments of what joins them by
commas and white space, unless there is a single empty one. Into such arguments, balanced text that is not blank
falls at each of its commas outside brackets. -/
theorem arguments_exact :
    (∀ args pieces, (∀ a ∈ args, a.Trimmed ∧ Balanced a ∧ SingleArgument a) → args ≠ [[]] →
      List.Forall₂ Padded args pieces → arguments (List.intercalate [','] pieces) = args) ∧
    ∀ t, Balanced t → (∃ c ∈ t, Text.isBlank c = false) →
      (arguments t).length = outerCommas t + 1 ∧
        ∀ a ∈ arguments t, a.Trimmed ∧ Balanced a ∧ SingleArgument a := by
  refine ⟨fun args pieces hargs hne h => arguments_of_padded h hargs hne, fun t ht hblank => ?_⟩
  refine ⟨length_arguments hblank, fun a ha => ?_⟩
  exact ⟨trimmed_of_mem_arguments ha, balanced_of_mem_arguments ht ha, singleArgument_of_mem_arguments ha⟩

theorem arguments_exact_nested :
    let args := ["f(1, 2)", "", "(a,(b))"].map String.toText
    let pieces := ["\tf(1, 2) ", " ", "(a,(b))\n"].map String.toText
    let t := "\tf(1, 2) , ,(a,(b))\n".toText
    (∀ a ∈ args, Text.Trimmed a ∧ Balanced a ∧ SingleArgument a) ∧ args ≠ [[]] ∧
      List.Forall₂ Padded args pieces ∧ arguments t = args ∧ Balanced t ∧ (∃ c ∈ t, Text.isBlank c = false) ∧
      outerCommas t = 2 ∧ (arguments t).length = outerCommas t + 1 ∧
      ∀ a ∈ arguments t, Text.Trimmed a ∧ Balanced a ∧ SingleArgument a := by
  intro args pieces t
  have hargs : ∀ a ∈ args, Text.Trimmed a ∧ Balanced a ∧ SingleArgument a := by decide +kernel
  have hne : args ≠ [[]] := by decide
  have hblank : ∀ t : Text, t.all Text.isBlank = true → ∀ c ∈ t, Text.isBlank c = true :=
    fun _ => List.all_eq_true.1
  have hpieces : List.Forall₂ Padded args pieces :=
    .cons (.intro ['\t'] [' '] (hblank _ (by decide)) (hblank _ (by decide))) <|
      .cons (.intro [] [' '] (hblank _ (by decide)) (hblank _ (by decide))) <|
      .cons (.intro [] ['\n'] (hblank _ (by decide)) (hblank _ (by decide))) .nil
  have ht : Balanced t := by decide +kernel
  have hsome : ∃ c ∈ t, Text.isBlank c = false := ⟨'f', by decide, by decide⟩
  obtain ⟨hlength, hall⟩ := arguments_exact.2 t ht hsome
  have hjoined : arguments t = args := arguments_exact.1 args pieces hargs hne hpieces
  exact ⟨hargs, hne, hpieces, hjoined, ht, hsome, by decide +kernel, hlength, hall⟩

end ScriptMacros.Bracket
