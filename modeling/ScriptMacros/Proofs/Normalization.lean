import Mathlib.Data.List.TakeWhile
import ScriptMacros.Proofs.Conservation

namespace ScriptMacros

namespace Text

variable {t : Text} {c : CodePoint}

theorem trimStart_cons (h : isBlank c = false) : trimStart (c :: t) = c :: t := by
  simp [trimStart, h]

theorem trimStart_of_head? (h : ∀ c ∈ t.head?, isBlank c = false) : trimStart t = t := by
  cases t with
  | nil => rfl
  | cons c t => exact trimStart_cons (h c rfl)

theorem trimStart_eq (h : ∀ c ∈ t, isBlank c = false) : trimStart t = t :=
  trimStart_of_head? fun c hc => h c (List.mem_of_mem_head? hc)

theorem trimEnd_eq_reverse (t : Text) : trimEnd t = (trimStart t.reverse).reverse := rfl

theorem trim_eq (h : ∀ c ∈ t, isBlank c = false) : trim t = t := by
  rw [trim, trimStart_eq h, trimEnd_eq_reverse, trimStart_eq fun c hc => h c (List.mem_reverse.1 hc),
    List.reverse_reverse]

theorem mem_trimStart (hc : c ∈ t) (h : isBlank c = false) : c ∈ trimStart t := by
  induction t with
  | nil => contradiction
  | cons d t ih =>
    cases hd : isBlank d with
    | false =>
      rw [trimStart_cons hd]
      exact hc
    | true =>
      rw [trimStart, List.dropWhile_cons_of_pos hd]
      rcases List.mem_cons.1 hc with rfl | hc
      · rw [h] at hd
        contradiction
      · exact ih hc

theorem mem_trim (hc : c ∈ t) (h : isBlank c = false) : c ∈ trim t := by
  rw [trim, trimEnd_eq_reverse, List.mem_reverse]
  exact mem_trimStart (List.mem_reverse.2 (mem_trimStart hc h)) h

theorem trimStart_append_of_blank (h : ∀ c ∈ t, isBlank c = true) (u : Text) : trimStart (t ++ u) = trimStart u :=
  List.dropWhile_append_of_pos h

theorem trimStart_append_of_mem (hc : c ∈ t) (h : isBlank c = false) (u : Text) :
    trimStart (t ++ u) = trimStart t ++ u := by
  have hne := List.ne_nil_of_mem (mem_trimStart hc h)
  rw [trimStart, List.dropWhile_append, if_neg (by simpa [trimStart] using hne)]
  rfl

end Text

def InLine (c : CodePoint) : Prop := c ≠ '\n' ∧ c ≠ '\r' ∧ c ≠ '\t'

instance InLine.decidable (c : CodePoint) : Decidable (InLine c) := inferInstanceAs (Decidable (_ ∧ _))

namespace Line

variable {t l r : Text}

structure CommentFree (t : Text) : Prop where
  line : ¬"//".toText <:+: t
  block : ¬"/*".toText <:+: t

theorem commentFree_iff : CommentFree t ↔ ¬"//".toText <:+: t ∧ ¬"/*".toText <:+: t :=
  ⟨fun h => ⟨h.line, h.block⟩, fun h => ⟨h.1, h.2⟩⟩

theorem CommentFree.of_notMem (h : .char '/' ∉ t) : CommentFree t :=
  ⟨fun hi => h (hi.subset (by decide)), fun hi => h (hi.subset (by decide))⟩

theorem CommentFree.append_cons {s : CodePoint} (hs : s ≠ '/' ∧ s ≠ '*') (hl : CommentFree l) (hr : CommentFree r) :
    CommentFree (l ++ s :: r) := by
  refine ⟨fun hi => ?_, fun hi => ?_⟩
  · rcases infix_of_infix_append_cons (by simpa using hs.1) hi with h | h
    · exact hl.line h
    · exact hr.line h
  · rcases infix_of_infix_append_cons (by simpa using hs) hi with h | h
    · exact hl.block h
    · exact hr.block h

theorem CommentFree.dropComments_eq (h : CommentFree t) : dropComments t = t := by
  apply dropComments_of_not_hasComment
  rintro ⟨u, hu, hs⟩
  cases hs with
  | line rest => exact h.line ((List.prefix_append _ rest).isInfix.trans hu.isInfix)
  | block rest hbody => exact h.block ((List.prefix_append _ _).isInfix.trans hu.isInfix)

structure Clean (t : Text) : Prop where
  inLine : ∀ c ∈ t, InLine c
  commentFree : CommentFree t

instance Clean.decidable (t : Text) : Decidable (Clean t) :=
  decidable_of_iff (t.all (fun c => InLine c) = true ∧ ¬"//".toText <:+: t ∧ ¬"/*".toText <:+: t)
    ⟨fun h => ⟨fun c hc => of_decide_eq_true (List.all_eq_true.1 h.1 c hc), commentFree_iff.2 h.2⟩,
      fun h => ⟨List.all_eq_true.2 fun c hc => decide_eq_true (h.inLine c hc), commentFree_iff.1 h.commentFree⟩⟩

theorem Clean.of_forall (h : ∀ c ∈ t, InLine c ∧ c ≠ '/') : Clean t :=
  ⟨fun c hc => (h c hc).1, .of_notMem fun hm => (h _ hm).2 rfl⟩

theorem Clean.append_cons (s : CodePoint) (hs : InLine s ∧ s ≠ '/' ∧ s ≠ '*') (hl : Clean l) (hr : Clean r) :
    Clean (l ++ s :: r) := by
  refine ⟨?_, hl.commentFree.append_cons hs.2 hr.commentFree⟩
  intro c hc
  rcases List.mem_append.1 hc with hc | hc
  · exact hl.inLine c hc
  · rcases List.mem_cons.1 hc with rfl | hc
    · exact hs.1
    · exact hr.inLine c hc

theorem Clean.intercalate (s : CodePoint) {ls : List Text} (hs : InLine s ∧ s ≠ '/' ∧ s ≠ '*')
    (h : ∀ l ∈ ls, Clean l) : Clean ([s].intercalate ls) := by
  induction ls with
  | nil => exact .of_forall (by simp)
  | cons l ls ih =>
    have hl := h l List.mem_cons_self
    cases ls with
    | nil => simpa using hl
    | cons m ls =>
      rw [List.intercalate_cons_cons, List.append_assoc]
      apply hl.append_cons s hs
      apply ih
      intro k hk
      exact h k (List.mem_cons_of_mem l hk)

theorem Clean.normalize_eq (h : Clean t) (hstart : t.trimStart = t) : normalize t = t := by
  rw [normalize, hstart, h.commentFree.dropComments_eq]
  apply map_eq_self
  intro c hm
  exact if_neg (h.inLine c hm).2.2

theorem dropComments_trimStart (t : Text) :
    dropComments t = t.takeWhile Text.isBlank ++ dropComments t.trimStart := by
  have hslash : .char '/' ∉ t.takeWhile Text.isBlank := by
    intro h
    have hblank := List.mem_takeWhile_imp h
    contradiction
  rw [← dropComments_append hslash, Text.trimStart, List.takeWhile_append_dropWhile]

theorem normalize_block_of_mem {a c : Text} {x : CodePoint} (hx : x ∈ a) (hn : Text.isBlank x = false)
    (ha : .char '/' ∉ a) (hc : .char '*' ∉ c) (b : Text) : normalize (a ++ (block c ++ b)) = normalize (a ++ b) := by
  have hstart : .char '/' ∉ a.trimStart := fun h => ha ((List.dropWhile_sublist _).subset h)
  rw [normalize, normalize, Text.trimStart_append_of_mem hx hn, Text.trimStart_append_of_mem hx hn,
    dropComments_append hstart, dropComments_append hstart, dropComments_block hc]

theorem normalize_block_of_blank {a c : Text} (ha : ∀ x ∈ a, Text.isBlank x = true) (hc : .char '*' ∉ c) (b : Text) :
    normalize (a ++ (block c ++ b)) =
      (b.takeWhile Text.isBlank).map (fun x => if x = .char '\t' then .char ' ' else x) ++ normalize (a ++ b) := by
  have hstart : Text.trimStart (block c ++ b) = block c ++ b := Text.trimStart_cons (by decide)
  rw [normalize, normalize, Text.trimStart_append_of_blank ha, Text.trimStart_append_of_blank ha, hstart,
    dropComments_block hc, dropComments_trimStart b, List.map_append]

/-- A block comment in a line changes nothing, and so neither whether the line is a directive nor what it says, if
there is something before it besides white space or no white space right behind it. Otherwise that white space stays
in front of the line, which is code then. -/
theorem normalize_block {a c : Text} (ha : .char '/' ∉ a) (hc : .char '*' ∉ c) (b : Text) :
    ((∃ x ∈ a, Text.isBlank x = false) ∨ b.head?.any Text.isBlank = false →
      normalize (a ++ (block c ++ b)) = normalize (a ++ b) ∧
        Directive.ofLine? (normalize (a ++ (block c ++ b))) = Directive.ofLine? (normalize (a ++ b))) ∧
    ((∀ x ∈ a, Text.isBlank x = true) → b.head?.any Text.isBlank = true →
      Directive.ofLine? (normalize (a ++ (block c ++ b))) = none ∧ normalize (a ++ (block c ++ b)) =
        (b.takeWhile Text.isBlank).map (fun x => if x = .char '\t' then .char ' ' else x) ++ normalize (a ++ b)) := by
  constructor
  · intro h
    suffices heq : normalize (a ++ (block c ++ b)) = normalize (a ++ b) from ⟨heq, congrArg _ heq⟩
    by_cases hblank : ∀ x ∈ a, Text.isBlank x = true
    · have hb : b.takeWhile Text.isBlank = [] := by
        rcases h with ⟨x, hx, hn⟩ | h
        · rw [hblank x hx] at hn
          contradiction
        · cases b with
          | nil => rfl
          | cons y b => exact List.takeWhile_cons_of_neg (by simpa using h)
      rw [normalize_block_of_blank hblank hc, hb]
      rfl
    · simp only [not_forall, Bool.not_eq_true] at hblank
      obtain ⟨x, hx, hn⟩ := hblank
      exact normalize_block_of_mem hx hn ha hc b
  · intro hblank hb
    refine ⟨?_, normalize_block_of_blank hblank hc b⟩
    rw [Directive.ofLine?_eq_none_iff, normalize_block_of_blank hblank hc]
    cases b with
    | nil => contradiction
    | cons y b =>
      have hy : Text.isBlank y = true := hb
      have hhash : (if y = '\t' then .char ' ' else y) ≠ '#' := by
        split
        · decide
        · rintro rfl
          contradiction
      rw [List.takeWhile_cons_of_pos hy, List.map_cons, List.cons_append, List.head?_cons]
      exact fun he => hhash (Option.some.inj he)

theorem normalize_block_separating :
    let a := " #define".toText
    let b := "\tA(x) \\ 1".toText
    let c := " // #/".toText
    .char '/' ∉ a ∧ .char '*' ∉ c ∧ (∃ x ∈ a, Text.isBlank x = false) ∧
      normalize (a ++ (block c ++ b)) = normalize (a ++ b) ∧
      Directive.ofLine? (normalize (a ++ (block c ++ b))) = some ⟨"define".toText, "A(x) \\ 1".toText⟩ ∧
      (∀ x ∈ [CodePoint.char ' '], Text.isBlank x = true) ∧ b.head?.any Text.isBlank = true ∧
      Directive.ofLine? (normalize ([.char ' '] ++ (block c ++ b))) = none ∧
      normalize ([.char ' '] ++ (block c ++ b)) = .char ' ' :: normalize ([.char ' '] ++ b) := by
  intro a b c
  have ha : .char '/' ∉ a := by decide
  have hc : .char '*' ∉ c := by decide
  have hword : ∃ x ∈ a, Text.isBlank x = false := ⟨'#', by decide, by decide⟩
  have hblank : ∀ x ∈ [CodePoint.char ' '], Text.isBlank x = true := List.forall_mem_singleton.2 (by decide)
  obtain ⟨heq, hline⟩ := (normalize_block ha hc b).1 (.inl hword)
  have hslash : .char '/' ∉ [CodePoint.char ' '] := by decide
  obtain ⟨hcode, hkept⟩ := (normalize_block hslash hc b).2 hblank (by decide)
  exact ⟨ha, hc, hword, heq, hline.trans (by decide +kernel), hblank, by decide, hcode, hkept⟩

theorem normalize_block_in_front :
    let b := " #define X 1".toText
    normalize (block " a ".toText ++ b) = b ∧ Directive.ofLine? (normalize (block " a ".toText ++ b)) = none ∧
      Directive.ofLine? (normalize b) = some ⟨"define".toText, "X 1".toText⟩ ∧
      ¬∀ a b c : Text, .char '\n' ∉ a → .char '\n' ∉ b → .char '\n' ∉ c → .char '/' ∉ a → .char '/' ∉ b →
        .char '*' ∉ c →
        normalize (a ++ (block c ++ b)) = normalize (a ++ b) := by
  intro b
  refine ⟨by decide +kernel, by decide +kernel, by decide +kernel, fun h => ?_⟩
  have heq := h [] b " a ".toText (by decide) (by decide) (by decide) (by decide) (by decide) (by decide)
  exact absurd heq (by decide +kernel)

end Line

end ScriptMacros
