import Mathlib.Data.List.Infix
import ScriptMacros.Text.Basic

namespace ScriptMacros

theorem map_eq_self {α : Type} {f : α → α} {l : List α} (h : ∀ a ∈ l, f a = a) : l.map f = l := by
  rw [List.map_congr_left h, List.map_id']

theorem infix_intercalate {α : Type} (sep : List α) {l : List α} {ls : List (List α)} (h : l ∈ ls) :
    l <:+: sep.intercalate ls := by
  induction ls with
  | nil => contradiction
  | cons m ls ih =>
    cases ls with
    | nil =>
      obtain rfl : l = m := List.mem_singleton.1 h
      simp
    | cons n ls =>
      rw [List.intercalate_cons_cons]
      rcases List.mem_cons.1 h with rfl | h
      · rw [List.append_assoc]
        exact (List.prefix_append _ _).isInfix
      · exact (ih h).trans (List.suffix_append _ _).isInfix

theorem mem_intercalate {α : Type} {s c : α} {ls : List (List α)} (h : c ∈ [s].intercalate ls) :
    c = s ∨ ∃ l ∈ ls, c ∈ l := by
  induction ls with
  | nil => contradiction
  | cons l ls ih =>
    cases ls with
    | nil => exact Or.inr ⟨l, List.mem_cons_self, by simpa using h⟩
    | cons l' ls =>
      rw [List.intercalate_cons_cons, List.append_assoc] at h
      rcases List.mem_append.1 h with h | h
      · exact Or.inr ⟨l, List.mem_cons_self, h⟩
      · rcases List.mem_cons.1 h with h | h
        · exact Or.inl h
        · rcases ih h with h | ⟨k, hk, h⟩
          · exact Or.inl h
          · exact Or.inr ⟨k, List.mem_cons_of_mem l hk, h⟩

theorem prefix_append_cases {α : Type} {w s r : List α} (h : w <+: s ++ r) :
    w <+: s ∨ ∃ q, q ≠ [] ∧ w = s ++ q ∧ q <+: r := by
  rcases Nat.le_total w.length s.length with hlen | hlen
  · exact Or.inl (List.prefix_of_prefix_length_le h (List.prefix_append s r) hlen)
  · obtain ⟨q, rfl⟩ := List.prefix_of_prefix_length_le (List.prefix_append s r) h hlen
    rw [List.prefix_append_right_inj] at h
    by_cases hq : q = []
    · exact Or.inl (by simp [hq])
    · exact Or.inr ⟨q, hq, rfl, h⟩

theorem infix_of_infix_append_cons {α : Type} {s : α} {w l r : List α} (hs : s ∉ w) (h : w <:+: l ++ s :: r) :
    w <:+: l ∨ w <:+: r := by
  obtain ⟨x, y, he⟩ := h
  rcases List.append_eq_append_iff.1 he with ⟨z, hl, -⟩ | ⟨z, hx, hr⟩
  · exact Or.inl ⟨x, z, hl.symm⟩
  · cases z with
    | nil => exact Or.inl ⟨x, [], by rw [List.append_nil, hx, List.append_nil]⟩
    | cons c z =>
      rw [List.cons_append, List.cons.injEq] at hr
      obtain ⟨rfl, rfl⟩ := hr
      rcases List.append_eq_append_iff.1 hx with ⟨v, -, hw⟩ | ⟨v, -, hv⟩
      · exact absurd (hw ▸ by simp) hs
      · cases v with
        | nil =>
          rw [List.nil_append] at hv
          exact absurd (hv ▸ List.mem_cons_self) hs
        | cons d v =>
          rw [List.cons_append, List.cons.injEq] at hv
          exact Or.inr ⟨v, y, by rw [hv.2]⟩

theorem eq_append_of_getElem? {α : Type} {l : List α} {i : Nat} {a : α} (h : l[i]? = some a) :
    l = l.take i ++ a :: l.drop (i + 1) := by
  obtain ⟨hi, rfl⟩ := List.getElem?_eq_some_iff.1 h
  rw [← List.drop_eq_getElem_cons hi, List.take_append_drop]

theorem exists_of_concat_eq {α : Type} {t m rest : List α} {s : α} (h : t ++ [s] = m ++ rest)
    (hm : m.getLast? ≠ some s) : ∃ r, t = m ++ r := by
  rcases List.eq_nil_or_concat rest with rfl | ⟨r, c, rfl⟩
  · rw [List.append_nil] at h
    exact absurd (h ▸ List.getLast?_concat) hm
  · rw [List.concat_eq_append, ← List.append_assoc] at h
    exact ⟨r, (List.append_inj' h rfl).1⟩

section

variable {α : Type} {P : List α → Prop} {s : α} {l : List α}

theorem exists_suffix_cons : (∃ u, u <:+ s :: l ∧ P u) ↔ P (s :: l) ∨ ∃ u, u <:+ l ∧ P u := by
  constructor
  · rintro ⟨u, hu, h⟩
    rcases List.suffix_cons_iff.1 hu with rfl | hu
    · exact Or.inl h
    · exact Or.inr ⟨u, hu, h⟩
  · rintro (h | ⟨u, hu, h⟩)
    · exact ⟨_, List.suffix_rfl, h⟩
    · exact ⟨u, hu.trans (List.suffix_cons s l), h⟩

theorem exists_suffix_concat (hnil : ¬P []) (h : ∀ u, P (u ++ [s]) ↔ P u) :
    (∃ u, u <:+ l ++ [s] ∧ P u) ↔ ∃ u, u <:+ l ∧ P u := by
  constructor
  · rintro ⟨u, hu, hP⟩
    rcases List.suffix_concat_iff.1 hu with rfl | ⟨v, rfl, hv⟩
    · exact absurd hP hnil
    · exact ⟨v, hv, (h v).1 hP⟩
  · rintro ⟨u, ⟨v, rfl⟩, hP⟩
    exact ⟨u ++ [s], ⟨v, (List.append_assoc ..).symm⟩, (h u).2 hP⟩

end

section

variable {α : Type} [DecidableEq α] {s : α}

theorem separator_notMem {t l : List α} (h : l ∈ t.splitOn s) : s ∉ l := by
  induction t generalizing l with
  | nil =>
    obtain rfl : l = [] := by simpa using h
    simp
  | cons c t ih =>
    rw [List.splitOn_cons_eq_if_modifyHead] at h
    split at h
    · rcases List.mem_cons.1 h with rfl | h
      · simp
      · exact ih h
    · next hc =>
      obtain ⟨r, rs, hr⟩ := List.exists_cons_of_ne_nil (List.splitOn_ne_nil s t)
      rw [hr, List.modifyHead_cons] at h
      rcases List.mem_cons.1 h with rfl | h
      · have hs := ih (hr ▸ List.mem_cons_self)
        exact List.not_mem_cons_of_ne_of_not_mem (fun he => hc (by simp [he])) hs
      · exact ih (hr ▸ List.mem_cons_of_mem r h)

theorem infix_of_mem_splitOn {t l : List α} (h : l ∈ t.splitOn s) : l <:+: t := by
  have hi := infix_intercalate [s] h
  rwa [List.intercalate_splitOn] at hi

theorem length_splitOn (s : α) (t : List α) : (t.splitOn s).length = t.count s + 1 := by
  induction t with
  | nil => rfl
  | cons c t ih =>
    rw [List.splitOn_cons_eq_if_modifyHead]
    by_cases hc : c = s <;> simp [hc, ih]

end

namespace Text

theorem newline_notMem {t l : Text} (h : l ∈ lines t) : .char '\n' ∉ l := separator_notMem h

theorem subset_of_mem_lines {t l : Text} (h : l ∈ lines t) : l ⊆ t := (infix_of_mem_splitOn h).subset

theorem lines_ofLines {ls : List Text} (hn : ls ≠ []) (h : ∀ l ∈ ls, .char '\n' ∉ l) : lines (ofLines ls) = ls :=
  List.splitOn_intercalate (CodePoint.char '\n') h hn

theorem mem_ofLines {ls : List Text} {c : CodePoint} (h : c ∈ ofLines ls) : c = '\n' ∨ ∃ l ∈ ls, c ∈ l :=
  mem_intercalate h

end Text

end ScriptMacros
