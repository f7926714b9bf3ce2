import ScriptMacros.Proofs.Declaration
import ScriptMacros.Proofs.Normalization

namespace ScriptMacros.Line

/-- What is left of a text without white space in front. A block comment goes on to its first star, which has to
stand before a slash, and a line comment to the next line feed or to the end. -/
inductive Leaves : Text → Text → Prop
  | nil : Leaves [] []
  | block {body rest left} : .char '*' ∉ body → Leaves rest left →
      Leaves (.char '/' :: .char '*' :: (body ++ .char '*' :: .char '/' :: rest)) left
  | line {body rest left} : .char '\n' ∉ body → (∀ c : CodePoint, c ∈ rest.head? → c = '\n') → Leaves rest left →
      Leaves (.char '/' :: .char '/' :: (body ++ rest)) left
  | tab {rest left} : Leaves rest left → Leaves (.char '\t' :: rest) (.char ' ' :: left)
  | keep {c : CodePoint} {rest left} : c ≠ '\t' → ¬StartsComment (c :: rest) → Leaves rest left →
      Leaves (c :: rest) (c :: left)

def spaced (t : Text) : Text := t.map fun c : CodePoint => if c = '\t' then .char ' ' else c

variable {t left body rest l a b c : Text}

theorem spaced_append (t u : Text) : spaced (t ++ u) = spaced t ++ spaced u := List.map_append

theorem not_startsComment {d : CodePoint} (hd : d ≠ '/') (t : Text) : ¬StartsComment (d :: t) := by
  intro h
  obtain ⟨e, u, he⟩ := h.exists_cons
  exact hd (List.cons.inj he).1

theorem exists_line (t : Text) :
    ∃ body rest : Text, t = body ++ rest ∧ .char '\n' ∉ body ∧ ∀ c ∈ rest.head?, c = '\n' := by
  refine ⟨t.takeWhile (· != .char '\n'), t.dropWhile (· != .char '\n'), List.takeWhile_append_dropWhile.symm, ?_, ?_⟩
  · intro h
    have := List.mem_takeWhile_imp h
    contradiction
  · intro d hd
    have := List.head?_dropWhile_not (· != .char '\n') t
    rw [hd] at this
    simpa using this

theorem dropComments_line (hbody : .char '\n' ∉ body) (hrest : ∀ c ∈ rest.head?, c = '\n') :
    dropComments (.char '/' :: .char '/' :: (body ++ rest)) = dropComments rest := by
  have hall : ∀ d ∈ body, (d != '\n') = true := by
    intro d hd
    rw [bne_iff_ne]
    exact ne_of_mem_of_not_mem hd hbody
  have hstop : rest.takeWhile (· != .char '\n') = [] := by
    cases rest with
    | nil => rfl
    | cons d rest => simp [hrest d rfl]
  have hlength : commentLength (.char '/' :: .char '/' :: (body ++ rest)) = body.length + 1 + 1 := by
    simp [commentLength, List.takeWhile_append_of_pos hall, hstop]
  rw [dropComments, dropCommentsFrom, hlength]
  exact dropCommentsFrom_length (.char '/' :: body) rest

theorem Leaves.eq_spaced (h : Leaves t left) : left = spaced (dropComments t) := by
  induction h with
  | nil => rfl
  | @block body rest left hbody _ ih =>
    have hdrop :
        dropComments (.char '/' :: .char '*' :: (body ++ .char '*' :: .char '/' :: rest)) = dropComments rest := by
      simpa [Line.block] using dropComments_block hbody rest
    rw [hdrop, ih]
  | line hbody hrest _ ih => rw [dropComments_line hbody hrest, ih]
  | tab _ ih =>
    rw [dropComments_cons (not_startsComment (by decide) _), ih]
    rfl
  | keep hc hstarts _ ih =>
    rw [dropComments_cons hstarts, ih]
    simp [spaced, hc]

theorem exists_leaves (t : Text) : ∃ left, Leaves t left := by
  -- The reading goes on behind a comment, so the induction is on how much is left to read.
  induction hn : t.length using Nat.strong_induction_on generalizing t with
  | _ n ih =>
    cases t with
    | nil => exact ⟨[], .nil⟩
    | cons c t =>
      have hshorter : ∀ u : Text, u.length ≤ t.length → ∃ left, Leaves u left := by
        intro u hu
        apply ih u.length _ u rfl
        simp only [List.length_cons] at hn
        omega
      by_cases hstarts : StartsComment (c :: t)
      · cases hstarts with
        | line u =>
          obtain ⟨body, rest, rfl, hbody, hrest⟩ := exists_line u
          obtain ⟨left, hleft⟩ := hshorter rest (by simp; omega)
          exact ⟨left, .line hbody hrest hleft⟩
        | block rest hbody =>
          obtain ⟨left, hleft⟩ := hshorter rest (by simp; omega)
          exact ⟨left, .block hbody hleft⟩
      · obtain ⟨left, hleft⟩ := hshorter t (Nat.le_refl _)
        by_cases hc : c = '\t'
        · subst hc
          exact ⟨.char ' ' :: left, .tab hleft⟩
        · exact ⟨c :: left, .keep hc hstarts hleft⟩

theorem leaves_iff : Leaves t left ↔ spaced (dropComments t) = left := by
  constructor
  · exact fun h => h.eq_spaced.symm
  · rintro rfl
    obtain ⟨left, h⟩ := exists_leaves t
    rwa [← h.eq_spaced]

theorem normalize_append_slash (hl : .char '/' ∉ l) (t : Text) :
    normalize (l ++ .char '/' :: t) = normalize l ++ spaced (dropComments (.char '/' :: t)) := by
  have hstart : .char '/' ∉ l.trimStart := fun h => hl ((List.dropWhile_sublist _).subset h)
  have hnormal : normalize l = spaced l.trimStart := congrArg spaced (CommentFree.of_notMem hstart).dropComments_eq
  have htrim : Text.trimStart (l ++ .char '/' :: t) = l.trimStart ++ .char '/' :: t := by
    by_cases hblank : ∀ x ∈ l, Text.isBlank x = true
    · have hnone : l.trimStart = [] := List.dropWhile_eq_nil_iff.2 hblank
      rw [Text.trimStart_append_of_blank hblank, hnone, Text.trimStart_cons (by decide), List.nil_append]
    · simp only [not_forall, Bool.not_eq_true] at hblank
      obtain ⟨x, hx, hn⟩ := hblank
      exact Text.trimStart_append_of_mem hx hn _
  rw [hnormal, ← spaced_append, ← dropComments_append hstart, ← htrim]
  rfl

theorem not_startsComment_nested (ha : .char '*' ∉ a) (hb : b.head? ≠ some (.char '/')) (t : Text) :
    ¬StartsComment (.char '/' :: .char '*' :: (a ++ (block b ++ t))) := by
  generalize hu : .char '/' :: .char '*' :: (a ++ (block b ++ t)) = u
  intro h
  cases h with
  | line rest => cases hu
  | @block body rest hbody =>
    have hstar : .char '*' ∉ a ++ [.char '/'] := by simp [ha]
    have htexts : (a ++ [.char '/']) ++ .char '*' :: (b ++ .char '*' :: .char '/' :: t) =
        body ++ .char '*' :: .char '/' :: rest := by
      simpa [block] using (List.cons.inj (List.cons.inj hu).2).2
    have hcut := congrArg (Text.cutAt? (.char '*')) htexts
    rw [Text.cutAt?_append hstar, Text.cutAt?_append hbody] at hcut
    have hbehind : b ++ .char '*' :: .char '/' :: t = .char '/' :: rest := congrArg Prod.snd (Option.some.inj hcut)
    cases b with
    | nil => cases hbehind
    | cons d b => exact hb (congrArg some (List.cons.inj hbehind).1)

theorem dropComments_nested (ha : .char '/' ∉ a ∧ .char '*' ∉ a) (hb : .char '*' ∉ b ∧ b.head? ≠ some (.char '/'))
    (hc : .char '/' ∉ c) :
    dropComments (.char '/' :: .char '*' :: (a ++ (block b ++ (c ++ "*/".toText)))) = block (a ++ c) := by
  have hclose : dropComments "*/".toText = "*/".toText := dropComments_of_not_hasComment (by decide)
  rw [dropComments_cons (not_startsComment_nested ha.2 hb.2 _), dropComments_cons (not_startsComment (by decide) _),
    dropComments_append ha.1, dropComments_block hb.1, dropComments_append hc, hclose]
  simp [block]

theorem normalize_append_block (hl : .char '/' ∉ l) (hbody : .char '*' ∉ body) (h : Leaves rest left) :
    normalize (l ++ (block body ++ rest)) = normalize l ++ left := by
  rw [← leaves_iff.1 h, ← dropComments_block hbody rest]
  exact normalize_append_slash hl (.char '*' :: (body ++ "*/".toText) ++ rest)

theorem normalize_append_line (hl : .char '/' ∉ l) (hbody : .char '\n' ∉ body) (h : Leaves (.char '\n' :: rest) left) :
    normalize (l ++ ("//".toText ++ (body ++ .char '\n' :: rest))) = normalize l ++ left := by
  rw [← leaves_iff.1 h, ← dropComments_line hbody (by simp)]
  exact normalize_append_slash hl (.char '/' :: (body ++ .char '\n' :: rest))

/-- The normal form of a line is what a single reading of it leaves. So two slashes in a block comment start no line
comment, an opening in a line comment starts no block, and when a comment is dropped inside an unfinished one, the
outer marks stay, although they would be a comment in another line. -/
theorem normalize_exact :
    (∀ t left, normalize t = left ↔ ∃ front rest, t = front ++ rest ∧ (∀ c ∈ front, Text.isBlank c = true) ∧
      (∀ c ∈ rest.head?, Text.isBlank c = false) ∧ Leaves rest left) ∧
    ∀ l : Text, .char '/' ∉ l →
      (∀ a b rest left, .char '*' ∉ a → .char '*' ∉ b → Leaves rest left →
        normalize (l ++ (block (a ++ ("//".toText ++ b)) ++ rest)) = normalize l ++ left) ∧
      (∀ a b rest left, .char '\n' ∉ a → .char '\n' ∉ b → Leaves (.char '\n' :: rest) left →
        normalize (l ++ ("//".toText ++ (a ++ ("/*".toText ++ b) ++ .char '\n' :: rest))) = normalize l ++ left) ∧
      ∀ a b c, .char '/' ∉ a ∧ .char '*' ∉ a → .char '*' ∉ b ∧ b.head? ≠ some (.char '/') →
        .char '/' ∉ c ∧ .char '*' ∉ c →
        normalize (l ++ ("/*".toText ++ (a ++ (block b ++ (c ++ "*/".toText))))) =
          normalize l ++ spaced (block (a ++ c)) ∧
        normalize (l ++ block (a ++ c)) = normalize l := by
  refine ⟨fun t left => ⟨?_, ?_⟩, fun l hl => ⟨?_, ?_, ?_⟩⟩
  · rintro rfl
    refine ⟨t.takeWhile Text.isBlank, t.trimStart, List.takeWhile_append_dropWhile.symm, ?_, ?_, leaves_iff.2 rfl⟩
    · exact fun c hc => List.mem_takeWhile_imp hc
    · exact fun c hc => Text.isBlank_head_trimStart hc
  · rintro ⟨front, rest, rfl, hfront, hrest, hleaves⟩
    rw [← leaves_iff.1 hleaves, normalize, Text.trimStart_append_of_blank hfront, Text.trimStart_of_head? hrest]
    rfl
  · intro a b rest left ha hb hleaves
    apply normalize_append_block hl _ hleaves
    simp [ha, hb]
  · intro a b rest left ha hb hleaves
    apply normalize_append_line hl _ hleaves
    simp [ha, hb]
  · intro a b c ha hb hc
    have hbody : .char '*' ∉ a ++ c := by simp [ha.2, hc.2]
    refine ⟨?_, by simpa using normalize_append_block hl hbody .nil⟩
    rw [← dropComments_nested ha hb hc.1]
    exact normalize_append_slash hl _

theorem normalize_exact_overlapping :
    let l := " \tx ".toText
    let rest := "\ty/*/ /***/z".toText
    let left := " y/*/ /***/z".toText
    let a := "a\t".toText
    let b := " / ".toText
    .char '/' ∉ l ∧ .char '\n' ∉ a ∧ Leaves rest left ∧ Leaves (.char '\n' :: rest) (.char '\n' :: left) ∧
      normalize (l ++ (block (a ++ ("//".toText ++ b)) ++ rest)) = normalize l ++ left ∧
      normalize (l ++ ("//".toText ++ (a ++ ("/*".toText ++ b) ++ .char '\n' :: rest))) =
        normalize l ++ .char '\n' :: left ∧
      (.char '/' ∉ a ∧ .char '*' ∉ a) ∧ (.char '*' ∉ b ∧ b.head? ≠ some (.char '/')) ∧
      normalize (l ++ ("/*".toText ++ (a ++ (block b ++ (a ++ "*/".toText))))) = "x /*a a */".toText ∧
      normalize (l ++ block (a ++ a)) = "x ".toText := by
  intro l rest left a b
  have hl : .char '/' ∉ l := by decide
  have ha : .char '/' ∉ a ∧ .char '*' ∉ a := by decide
  have hb : .char '*' ∉ b ∧ b.head? ≠ some (.char '/') := by decide
  have hline : .char '\n' ∉ a := by decide
  have hrest : Leaves rest left := leaves_iff.2 (by decide +kernel)
  have hnext : Leaves (.char '\n' :: rest) (.char '\n' :: left) := leaves_iff.2 (by decide +kernel)
  obtain ⟨hblock, hslashes, hnested⟩ := normalize_exact.2 l hl
  obtain ⟨houter, hwhole⟩ := hnested a b a ha hb ha
  exact ⟨hl, hline, hrest, hnext, hblock a b rest left ha.2 hb.1 hrest, hslashes a b rest _ hline (by decide) hnext, ha,
    hb, houter.trans (by decide +kernel), hwhole.trans (by decide +kernel)⟩

end ScriptMacros.Line
