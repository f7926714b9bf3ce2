import ScriptMacros.Line
import ScriptMacros.Proofs.Splitting

namespace ScriptMacros.Line

variable {t u l body rest : Text} {c s : CodePoint}

/-- A comment stands at the start: one that goes on to the end of the line, or a block that ends at its first star. -/
inductive StartsComment : Text → Prop
  | line (rest : Text) : StartsComment (.char '/' :: .char '/' :: rest)
  | block {body : Text} (rest : Text) : .char '*' ∉ body →
      StartsComment (.char '/' :: .char '*' :: (body ++ .char '*' :: .char '/' :: rest))

def HasComment (t : Text) : Prop := ∃ u, u <:+ t ∧ StartsComment u

theorem dropCommentsFrom_sublist (n : Nat) (t : Text) : (dropCommentsFrom n t).Sublist t := by
  induction t generalizing n with
  | nil => simp [dropCommentsFrom]
  | cons c t ih =>
    cases n with
    | succ n => exact (ih n).cons c
    | zero =>
      rw [dropCommentsFrom]
      split
      · exact (ih 0).cons_cons c
      · exact (ih _).cons c

theorem isSome_blockRest? :
    (blockRest? t).isSome = true ↔ ∃ body rest, .char '*' ∉ body ∧ t = body ++ .char '*' :: .char '/' :: rest := by
  induction t with
  | nil => simp [blockRest?]
  | cons c t ih =>
    unfold blockRest?
    by_cases hc : c = '*'
    · subst hc
      rw [if_pos rfl]
      constructor
      · intro h
        split at h
        · next rest => exact ⟨[], rest, by simp, rfl⟩
        · contradiction
      · rintro ⟨body, rest, hbody, ht⟩
        cases body with
        | nil =>
          cases ht
          rfl
        | cons d body =>
          cases ht
          exact absurd List.mem_cons_self hbody
    · rw [if_neg hc, Option.isSome_map, ih]
      constructor
      · rintro ⟨body, rest, hbody, rfl⟩
        exact ⟨c :: body, rest, List.not_mem_cons_of_ne_of_not_mem (Ne.symm hc) hbody, rfl⟩
      · rintro ⟨body, rest, hbody, ht⟩
        cases body with
        | nil =>
          cases ht
          exact absurd rfl hc
        | cons d body =>
          cases ht
          exact ⟨body, rest, fun hm => hbody (List.mem_cons_of_mem _ hm), rfl⟩

theorem commentLength_of_starts (h : StartsComment t) : 2 ≤ commentLength t := by
  cases h with
  | line rest =>
    rw [commentLength]
    omega
  | @block body rest hbody =>
    obtain ⟨n, hn⟩ := Option.isSome_iff_exists.1 (isSome_blockRest?.2 ⟨body, rest, hbody, rfl⟩)
    rw [commentLength, hn, Option.elim_some]
    omega

theorem commentLength_of_not_starts (h : ¬StartsComment t) : commentLength t = 0 := by
  simp only [commentLength]
  split
  · next t =>
    cases hb : blockRest? t with
    | none => rfl
    | some n =>
      obtain ⟨body, rest, hbody, rfl⟩ := isSome_blockRest?.1 (Option.isSome_iff_exists.2 ⟨n, hb⟩)
      exact absurd (.block rest hbody) h
  · next t => exact absurd (.line t) h
  · rfl

theorem StartsComment.exists_cons (h : StartsComment t) : ∃ c u, t = .char '/' :: c :: u := by
  cases h with
  | line rest => exact ⟨_, _, rfl⟩
  | block rest _ => exact ⟨_, _, rfl⟩

theorem hasComment_cons : HasComment (c :: t) ↔ StartsComment (c :: t) ∨ HasComment t := exists_suffix_cons

theorem dropComments_cons (h : ¬StartsComment (c :: t)) : dropComments (c :: t) = c :: dropComments t := by
  rw [dropComments, dropCommentsFrom, commentLength_of_not_starts h]
  rfl

theorem dropComments_of_not_hasComment (h : ¬HasComment t) : dropComments t = t := by
  induction t with
  | nil => rfl
  | cons c t ih =>
    rw [hasComment_cons, not_or] at h
    rw [dropComments_cons h.1, ih h.2]

theorem dropComments_append (h : .char '/' ∉ l) (t : Text) : dropComments (l ++ t) = l ++ dropComments t := by
  induction l with
  | nil => rfl
  | cons c l ih =>
    rw [List.mem_cons, not_or] at h
    have hstarts : ¬StartsComment (c :: (l ++ t)) := by
      intro hs
      obtain ⟨d, u, he⟩ := hs.exists_cons
      exact h.1 (List.cons.inj he).1.symm
    rw [List.cons_append, dropComments_cons hstarts, ih h.2, List.cons_append]

theorem dropCommentsFrom_length (l t : Text) : dropCommentsFrom l.length (l ++ t) = dropComments t := by
  induction l with
  | nil => rfl
  | cons c l ih => exact ih

theorem blockRest?_append (h : .char '*' ∉ body) (t : Text) :
    blockRest? (body ++ .char '*' :: .char '/' :: t) = some (body.length + 2) := by
  induction body with
  | nil => rfl
  | cons c body ih =>
    rw [List.mem_cons, not_or] at h
    unfold blockRest?
    dsimp only [List.cons_append]
    rw [if_neg (Ne.symm h.1), ih h.2]
    rfl

def block (body : Text) : Text := "/*".toText ++ (body ++ "*/".toText)

theorem dropComments_block (h : .char '*' ∉ body) (t : Text) : dropComments (block body ++ t) = dropComments t := by
  have hblock : block body ++ t = .char '/' :: .char '*' :: (body ++ .char '*' :: .char '/' :: t) := by simp [block]
  have hlength : commentLength (.char '/' :: .char '*' :: (body ++ .char '*' :: .char '/' :: t)) =
      body.length + 3 + 1 := by
    rw [commentLength, blockRest?_append h]
    rfl
  have hskip := dropCommentsFrom_length (.char '*' :: (body ++ "*/".toText)) t
  rw [hblock, dropComments, dropCommentsFrom, hlength]
  simpa using hskip

theorem length_dropComments_of_hasComment (h : HasComment t) : (dropComments t).length + 2 ≤ t.length := by
  induction t with
  | nil =>
    obtain ⟨u, hu, hs⟩ := h
    obtain ⟨d, v, rfl⟩ := hs.exists_cons
    simp at hu
  | cons c t ih =>
    by_cases hs : StartsComment (c :: t)
    · obtain ⟨n, hn⟩ := Nat.exists_eq_add_of_le (commentLength_of_starts hs)
      obtain ⟨d, u, he⟩ := hs.exists_cons
      cases he
      rw [dropComments, dropCommentsFrom, hn, Nat.add_comm 2 n]
      exact Nat.add_le_add_right (dropCommentsFrom_sublist n u).length_le 2
    · rw [dropComments_cons hs, List.length_cons, List.length_cons]
      have := ih ((hasComment_cons.1 h).resolve_left hs)
      omega

theorem dropComments_eq_iff : dropComments t = t ↔ ¬HasComment t := by
  refine ⟨fun he h => ?_, dropComments_of_not_hasComment⟩
  have := length_dropComments_of_hasComment h
  rw [he] at this
  omega

instance HasComment.decidable (t : Text) : Decidable (HasComment t) :=
  decidable_of_iff (dropComments t ≠ t) (not_congr dropComments_eq_iff |>.trans not_not)

theorem StartsComment.append (h : StartsComment t) (u : Text) : StartsComment (t ++ u) := by
  cases h with
  | line rest => exact .line (rest ++ u)
  | @block body rest hbody =>
    rw [List.cons_append, List.cons_append, List.append_assoc]
    exact .block (rest ++ u) hbody

theorem StartsComment.of_concat (hs : s ≠ '/') (h : StartsComment (t ++ [s])) : StartsComment t := by
  have hlast : some (CodePoint.char '/') ≠ some s := fun he => hs (Option.some.inj he).symm
  generalize hu : t ++ [s] = u at h
  cases h with
  | line rest =>
    obtain ⟨r, rfl⟩ := exists_of_concat_eq (m := [CodePoint.char '/', '/']) hu hlast
    exact .line r
  | @block body rest hbody =>
    have hsplit : t ++ [s] = (.char '/' :: .char '*' :: (body ++ [.char '*'])) ++ [.char '/'] ++ rest := by
      simpa using hu
    obtain ⟨r, rfl⟩ := exists_of_concat_eq hsplit (by rwa [List.getLast?_concat])
    simpa using StartsComment.block r hbody

theorem hasComment_concat (hs : s ≠ '/') : HasComment (t ++ [s]) ↔ HasComment t := by
  apply exists_suffix_concat
  · intro h
    obtain ⟨c, u, he⟩ := h.exists_cons
    contradiction
  · exact fun u => ⟨fun h => h.of_concat hs, fun h => h.append [s]⟩

end ScriptMacros.Line
