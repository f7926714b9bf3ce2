namespace ScriptMacros

variable {α : Type}

def insertLongest (size : α → Nat) (a : α) : List α → List α
  | [] => [a]
  | b :: l => if size b ≤ size a then a :: b :: l else b :: insertLongest size a l

def longestFirst (size : α → Nat) : List α → List α
  | [] => []
  | a :: l => insertLongest size a (longestFirst size l)

theorem insertLongest_perm (size : α → Nat) (a : α) (l : List α) : (insertLongest size a l).Perm (a :: l) := by
  induction l with
  | nil => exact .refl _
  | cons b l ih =>
    by_cases h : size b ≤ size a
    · simp [insertLongest, h]
    · simpa [insertLongest, h] using (ih.cons b).trans (.swap a b l)

theorem longestFirst_perm (size : α → Nat) (l : List α) : (longestFirst size l).Perm l := by
  induction l with
  | nil => exact .refl _
  | cons a l ih => exact (insertLongest_perm size a _).trans (ih.cons a)

theorem insertLongest_pairwise {size : α → Nat} {a : α} {l : List α} (h : l.Pairwise fun b c => size c ≤ size b) :
    (insertLongest size a l).Pairwise fun b c => size c ≤ size b := by
  induction l with
  | nil => simp [insertLongest]
  | cons b l ih =>
    obtain ⟨hb, hl⟩ := List.pairwise_cons.1 h
    rw [insertLongest]
    split
    · next hab =>
      refine List.pairwise_cons.2 ⟨?_, h⟩
      intro c hc
      rcases List.mem_cons.1 hc with rfl | hc
      · exact hab
      · exact Nat.le_trans (hb c hc) hab
    · next hab =>
      refine List.pairwise_cons.2 ⟨?_, ih hl⟩
      intro c hc
      rcases List.mem_cons.1 ((insertLongest_perm size a l).mem_iff.1 hc) with rfl | hc
      · exact Nat.le_of_not_le hab
      · exact hb c hc

theorem longestFirst_pairwise (size : α → Nat) (l : List α) :
    (longestFirst size l).Pairwise fun a b => size b ≤ size a := by
  induction l with
  | nil => exact .nil
  | cons a l ih => exact insertLongest_pairwise ih

theorem insertLongest_eq_cons {size : α → Nat} {a : α} {l : List α} (h : ∀ b ∈ l, size b ≤ size a) :
    insertLongest size a l = a :: l := by
  cases l with
  | nil => rfl
  | cons b l => exact if_pos (h b List.mem_cons_self)

theorem filter_insertLongest_of_neg {p : α → Bool} {a : α} (ha : ¬p a) (size : α → Nat) (l : List α) :
    (insertLongest size a l).filter p = l.filter p := by
  induction l with
  | nil => simp [insertLongest, ha]
  | cons b l ih =>
    rw [insertLongest]
    split
    · rw [List.filter_cons_of_neg ha]
    · rw [List.filter_cons, List.filter_cons, ih]

theorem filter_insertLongest_of_pos {p : α → Bool} {size : α → Nat} {a : α} {l : List α} (ha : p a)
    (h : l.Pairwise fun b c => size c ≤ size b) :
    (insertLongest size a l).filter p = insertLongest size a (l.filter p) := by
  induction l with
  | nil => simp [insertLongest, ha]
  | cons b l ih =>
    obtain ⟨hb, hl⟩ := List.pairwise_cons.1 h
    rw [insertLongest]
    split
    · next hba =>
      rw [List.filter_cons_of_pos ha, insertLongest_eq_cons]
      intro c hc
      rcases List.mem_cons.1 (List.mem_filter.1 hc).1 with rfl | hc
      · exact hba
      · exact Nat.le_trans (hb c hc) hba
    · next hba =>
      by_cases hp : p b
      · rw [List.filter_cons_of_pos hp, List.filter_cons_of_pos hp, insertLongest, if_neg hba, ih hl]
      · rw [List.filter_cons_of_neg hp, List.filter_cons_of_neg hp, ih hl]

theorem longestFirst_filter (size : α → Nat) (p : α → Bool) (l : List α) :
    longestFirst size (l.filter p) = (longestFirst size l).filter p := by
  induction l with
  | nil => rfl
  | cons a l ih =>
    by_cases ha : p a
    · rw [List.filter_cons_of_pos ha, longestFirst, longestFirst, ih,
        filter_insertLongest_of_pos ha (longestFirst_pairwise size l)]
    · rw [List.filter_cons_of_neg ha, longestFirst, ih, filter_insertLongest_of_neg ha]

theorem mem_longestFirst {size : α → Nat} {l : List α} {a : α} : a ∈ longestFirst size l ↔ a ∈ l :=
  (longestFirst_perm size l).mem_iff

end ScriptMacros
