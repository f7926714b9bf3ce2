import ScriptMacros.Proofs.Declaration

namespace ScriptMacros.Directive

variable {line word value t : Text} {d : Directive}

structure LongestWord (word t : Text) : Prop where
  begins : word <+: t
  space : .char ' ' ∉ word
  longest : ∀ w, w <+: t → .char ' ' ∉ w → w <+: word

theorem longestWord_self (h : .char ' ' ∉ word) : LongestWord word word := ⟨List.prefix_rfl, h, fun _ hw _ => hw⟩

theorem longestWord_append (h : .char ' ' ∉ word) (value : Text) : LongestWord word (word ++ .char ' ' :: value) := by
  refine ⟨List.prefix_append _ _, h, ?_⟩
  intro w hw hspace
  rcases prefix_append_cases hw with hword | ⟨q, hq, rfl, hrest⟩
  · exact hword
  · obtain ⟨c, q, rfl⟩ := List.exists_cons_of_ne_nil hq
    obtain ⟨rfl, -⟩ := List.cons_prefix_cons.1 hrest
    exact absurd (by simp) hspace

theorem ofLine?_bare (h : .char ' ' ∉ word) : ofLine? (.char '#' :: word) = some ⟨word, []⟩ := by
  have hread : Bracket.readUntil ' ' {} word = word := Bracket.readFrom_of_notMem h
  have hrest : word.drop (word.length + 1) = [] := List.drop_eq_nil_of_le (Nat.le_succ _)
  rw [ofLine?, hread, hrest]
  rfl

theorem ofLine?_exact (hline : .char '\n' ∉ line) :
    (ofLine? line = none ↔ line.head? ≠ some (.char '#')) ∧
      ∀ d, ofLine? line = some d → LongestWord d.word line.tail ∧
        (d.word = line.tail → line = .char '#' :: d.word ∧ d.value = []) ∧
        (d.word ≠ line.tail → line = .char '#' :: (d.word ++ .char ' ' :: d.value)) := by
  refine ⟨ofLine?_eq_none_iff, fun d hd => ?_⟩
  obtain ⟨t, rfl⟩ := List.head?_eq_some_iff.1 (isSome_ofLine?.1 (Option.isSome_of_eq_some hd))
  by_cases hspace : .char ' ' ∈ t
  · obtain ⟨word, value, rfl, hword⟩ := List.eq_append_cons_of_mem hspace
    have hvalue : .char '\n' ∉ value := fun hm => hline (by simp [hm])
    rw [ofLine?_word hword hvalue] at hd
    obtain rfl := Option.some.inj hd
    refine ⟨longestWord_append hword value, fun he => ?_, fun _ => rfl⟩
    simp at he
  · rw [ofLine?_bare hspace] at hd
    obtain rfl := Option.some.inj hd
    exact ⟨longestWord_self hspace, fun _ => ⟨rfl, rfl⟩, fun hne => absurd rfl hne⟩

theorem ofLine?_exact_unclosed :
    let line := "#define  F(x) (\\) \\( ((y) ".toText
    let value := " F(x) (\\) \\( ((y) ".toText
    .char '\n' ∉ line ∧ ofLine? line = some ⟨"define".toText, value⟩ ∧ LongestWord "define".toText line.tail ∧
      line = .char '#' :: ("define".toText ++ .char ' ' :: value) ∧ ofLine? "define F".toText = none := by
  intro line value
  have hline : .char '\n' ∉ line := by decide
  have hd : ofLine? line = some ⟨"define".toText, value⟩ := by decide +kernel
  obtain ⟨hword, -, hwhole⟩ := (ofLine?_exact hline).2 _ hd
  exact ⟨hline, hd, hword, hwhole (by decide), (ofLine?_exact (by decide)).1.2 (by decide)⟩

end ScriptMacros.Directive
