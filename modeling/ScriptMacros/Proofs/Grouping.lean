import Mathlib.Data.List.Induction
import Mathlib.Data.List.Nodup
import ScriptMacros.Macro.Table

namespace ScriptMacros

section

variable {α : Type} {size : α → Nat} {a : α} {k l sorted : List α}

structure Arranged (size : α → Nat) (l sorted : List α) : Prop where
  perm : sorted.Perm l
  decreasing : sorted.Pairwise fun a b => size b ≤ size a
  stable : ∀ n, sorted.filter (size · = n) = l.filter (size · = n)

theorem longestFirst_eq_self (h : l.Pairwise fun a b => size b ≤ size a) : longestFirst size l = l := by
  induction l with
  | nil => rfl
  | cons a l ih =>
    obtain ⟨ha, hl⟩ := List.pairwise_cons.1 h
    rw [longestFirst, ih hl, insertLongest_eq_cons ha]

theorem arranged_longestFirst (size : α → Nat) (l : List α) : Arranged size l (longestFirst size l) where
  perm := longestFirst_perm size l
  decreasing := longestFirst_pairwise size l
  stable := by
    intro n
    rw [← longestFirst_filter]
    apply longestFirst_eq_self
    refine List.pairwise_of_forall_mem_list fun a ha b hb => ?_
    have han : size a = n := of_decide_eq_true (List.mem_filter.1 ha).2
    have hbn : size b = n := of_decide_eq_true (List.mem_filter.1 hb).2
    omega

theorem mem_of_filter_eq (h : ∀ n, k.filter (size · = n) = l.filter (size · = n)) (ha : a ∈ k) : a ∈ l := by
  have hsize : a ∈ k.filter (size · = size a) := List.mem_filter.2 ⟨ha, decide_eq_true rfl⟩
  rw [h] at hsize
  exact (List.mem_filter.1 hsize).1

theorem eq_of_decreasing (hk : k.Pairwise fun a b => size b ≤ size a) (hl : l.Pairwise fun a b => size b ≤ size a)
    (h : ∀ n, k.filter (size · = n) = l.filter (size · = n)) : k = l := by
  induction k generalizing l with
  | nil =>
    refine (List.eq_nil_iff_forall_not_mem.2 fun a ha => ?_).symm
    exact List.not_mem_nil (mem_of_filter_eq (fun n => (h n).symm) ha)
  | cons a k ih =>
    cases l with
    | nil => exact absurd (mem_of_filter_eq h List.mem_cons_self) List.not_mem_nil
    | cons b l =>
      obtain ⟨hak, hk'⟩ := List.pairwise_cons.1 hk
      obtain ⟨hbl, hl'⟩ := List.pairwise_cons.1 hl
      have hab : size a ≤ size b := by
        rcases List.mem_cons.1 (mem_of_filter_eq h List.mem_cons_self) with rfl | ha
        · exact Nat.le_refl _
        · exact hbl a ha
      have hba : size b ≤ size a := by
        rcases List.mem_cons.1 (mem_of_filter_eq (fun n => (h n).symm) List.mem_cons_self) with rfl | hb
        · exact Nat.le_refl _
        · exact hak b hb
      have hsize : size a = size b := Nat.le_antisymm hab hba
      have hfirst := h (size b)
      rw [List.filter_cons_of_pos (by simpa using hsize), List.filter_cons_of_pos (by simp)] at hfirst
      obtain ⟨rfl, -⟩ := List.cons.inj hfirst
      congr 1
      refine ih hk' hl' fun n => ?_
      have hn := h n
      rw [List.filter_cons, List.filter_cons] at hn
      split at hn
      · exact (List.cons.inj hn).2
      · exact hn

theorem arranged_iff : Arranged size l sorted ↔ sorted = longestFirst size l := by
  have hsorted := arranged_longestFirst size l
  constructor
  · intro h
    exact eq_of_decreasing h.decreasing hsorted.decreasing fun n => (h.stable n).trans (hsorted.stable n).symm
  · rintro rfl
    exact hsorted

end

theorem eraseDups_concat {α : Type} [BEq α] [LawfulBEq α] (l : List α) (a : α) :
    (l ++ [a]).eraseDups = if a ∈ l then l.eraseDups else l.eraseDups ++ [a] := by
  rw [List.eraseDups_append]
  by_cases h : a ∈ l <;> simp [List.removeAll, h, List.eraseDups_cons]

/-- The registrations of one name and the macro that they make. Parameters, source and line come from the first of them;
each adds its definition, and the macro stands for the value of the last. -/
structure Macro.Gathers (m : Macro) (log : List Registration) : Prop where
  parameters : log.head?.map (·.parameters) = some m.parameters
  source : log.head?.map (·.definition.location.file) = some m.source
  line : log.head?.map (·.definition.location.line) = some m.line
  definitions : m.definitions = log.map (·.definition)
  body : log.getLast?.map (·.definition.value) = some m.body

theorem Registration.gathers_fresh (r : Registration) : r.fresh.Gathers [r] := ⟨rfl, rfl, rfl, rfl, rfl⟩

theorem Macro.Gathers.extend {m : Macro} {log : List Registration} (h : m.Gathers log) (r : Registration) :
    (m.extend r.definition).Gathers (log ++ [r]) := by
  have hhead : ∀ {β : Type} {f : Registration → β} {b : β}, log.head?.map f = some b →
      (log ++ [r]).head?.map f = some b := by
    intro β f b hb
    obtain ⟨first, hfirst, rfl⟩ := Option.map_eq_some_iff.1 hb
    rw [List.head?_append, hfirst]
    rfl
  refine ⟨hhead h.parameters, hhead h.source, hhead h.line, ?_, ?_⟩
  · rw [Macro.extend, h.definitions, List.map_append]
    rfl
  · rw [List.getLast?_concat, Macro.body_extend]
    rfl

namespace MacroTable

variable {t : MacroTable} {rs : List Registration} {name : Text} {m : Macro}

theorem get?_eq_some_iff : t.get? name = some m ↔ m ∈ t.macros ∧ m.name = name := by
  constructor
  · intro h
    have hname := List.find?_some h
    exact ⟨List.mem_of_find?_eq_some h, of_decide_eq_true hname⟩
  · rintro ⟨hm, rfl⟩
    rw [get?]
    cases hfind : t.macros.find? (·.name = m.name) with
    | none => exact absurd (decide_eq_true rfl) (List.find?_eq_none.1 hfind m hm)
    | some m' =>
      -- No two macros have one name.
      have hname := List.find?_some hfind
      rw [List.inj_on_of_nodup_map t.nodup (List.mem_of_find?_eq_some hfind) hm (of_decide_eq_true hname)]

theorem get?_eq_none_iff : t.get? name = none ↔ name ∉ t.names := by
  rw [get?, List.find?_eq_none, names, List.mem_map]
  simp

theorem get?_define (t : MacroTable) (r : Registration) (name : Text) : (t.define r).get? name =
    if r.name = name then some (((t.get? name).map (·.extend r.definition)).getD r.fresh) else t.get? name := by
  have hlist : ∀ ms : List Macro, (registerIn r ms).find? (·.name = name) =
      if r.name = name then some (((ms.find? (·.name = name)).map (·.extend r.definition)).getD r.fresh)
      else ms.find? (·.name = name) := by
    intro ms
    induction ms with
    | nil => by_cases h : r.name = name <;> simp [registerIn, Registration.fresh, h]
    | cons m ms ih =>
      rw [registerIn]
      by_cases hm : m.name = r.name
      · by_cases h : r.name = name <;> simp [hm, h]
      · rw [if_neg hm]
        by_cases h : m.name = name
        · have hne : r.name ≠ name := fun he => hm (h.trans he.symm)
          simp [h, hne]
        · simp [h, ih]
  exact hlist t.macros

structure Groups (t : MacroTable) (log : List Registration) : Prop where
  names : t.names = (log.map (·.name)).eraseDups
  macros : ∀ m ∈ t.macros, m.Gathers (log.filter (·.name = m.name))

theorem groups_empty : empty.Groups [] := ⟨rfl, fun m hm => by contradiction⟩

theorem Groups.define (h : t.Groups rs) (r : Registration) : (t.define r).Groups (rs ++ [r]) where
  names := by
    rw [names_define, List.map_append, List.map_singleton, eraseDups_concat, h.names]
    simp only [List.mem_eraseDups]
  macros := by
    intro m hm
    have hget : (t.define r).get? m.name = some m := get?_eq_some_iff.2 ⟨hm, rfl⟩
    rw [get?_define] at hget
    rw [List.filter_append]
    split at hget
    · next hname =>
      rw [List.filter_cons_of_pos (by simpa using hname), List.filter_nil]
      cases hold : t.get? m.name with
      | none =>
        have hnew : rs.filter (·.name = m.name) = [] := by
          rw [get?_eq_none_iff, h.names, List.mem_eraseDups, List.mem_map] at hold
          rw [List.filter_eq_nil_iff]
          exact fun q hq he => hold ⟨q, hq, of_decide_eq_true he⟩
        rw [hold] at hget
        obtain rfl := Option.some.inj hget
        rw [hnew]
        exact r.gathers_fresh
      | some m' =>
        obtain ⟨hm', hname'⟩ := get?_eq_some_iff.1 hold
        rw [hold] at hget
        obtain rfl := Option.some.inj hget
        exact (h.macros m' hm').extend r
    · next hname =>
      rw [List.filter_cons_of_neg (by simpa using hname), List.filter_nil, List.append_nil]
      exact h.macros m (get?_eq_some_iff.1 hget).1

theorem Groups.ofList (rs : List Registration) : (ofList rs).Groups rs := by
  induction rs using List.reverseRecOn with
  | nil => exact groups_empty
  | append_singleton rs r ih =>
    rw [MacroTable.ofList, List.foldl_append]
    exact ih.define r

/-- The table groups the registrations by name, and its macros are tried in the only arrangement by length that
keeps the order in which names of one length first came. -/
theorem ofList_grouped (rs : List Registration) :
    (ofList rs).Groups rs ∧ ∀ ms, ms = (ofList rs).byLength ↔ Arranged (·.name.length) (ofList rs).macros ms :=
  ⟨.ofList rs, fun _ => arranged_iff.symm⟩

end MacroTable

end ScriptMacros
