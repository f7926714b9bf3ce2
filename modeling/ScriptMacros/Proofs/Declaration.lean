import ScriptMacros.Proofs.Bracket
import ScriptMacros.Proofs.Conservation

namespace ScriptMacros

namespace Text

structure Trimmed (t : Text) : Prop where
  first : ∀ c, t.head? = some c → isBlank c = false
  last : ∀ c, t.getLast? = some c → isBlank c = false

variable {t : Text} {c : CodePoint}

theorem isBlank_head_trimStart (h : t.trimStart.head? = some c) : isBlank c = false := by
  have hnot := List.head?_dropWhile_not isBlank t
  rw [trimStart] at h
  rw [h] at hnot
  exact hnot

theorem trimEnd_prefix (t : Text) : trimEnd t <+: t := by
  rw [trimEnd, ← List.reverse_suffix, List.reverse_reverse]
  exact List.dropWhile_suffix isBlank

theorem trimmed_trim (t : Text) : t.trim.Trimmed where
  first := by
    intro c hc
    obtain ⟨r, hr⟩ := trimEnd_prefix t.trimStart
    apply isBlank_head_trimStart (t := t)
    rw [← hr, List.head?_append]
    rw [trim] at hc
    rw [hc]
    rfl
  last := by
    intro c hc
    rw [trim, trimEnd_eq_reverse, List.getLast?_reverse] at hc
    exact isBlank_head_trimStart hc

theorem notMem_of_cutAt? {s : CodePoint} {u v : Text} (h : cutAt? s t = some (u, v)) : s ∉ u := by
  induction t generalizing u with
  | nil => contradiction
  | cons c t ih =>
    rw [cutAt?] at h
    split at h
    · cases h
      exact List.not_mem_nil
    · next hc =>
      obtain ⟨⟨x, y⟩, hx, he⟩ := Option.map_eq_some_iff.1 h
      cases he
      exact List.not_mem_cons_of_ne_of_not_mem (Ne.symm hc) (ih hx)

theorem notMem_of_cutAt?_eq_none {s : CodePoint} (h : cutAt? s t = none) : s ∉ t := by
  induction t with
  | nil => exact List.not_mem_nil
  | cons c t ih =>
    rw [cutAt?] at h
    split at h
    · contradiction
    · next hc => exact List.not_mem_cons_of_ne_of_not_mem (Ne.symm hc) (ih (Option.map_eq_none_iff.1 h))

theorem cutAt?_eq_none {s : CodePoint} (h : s ∉ t) : cutAt? s t = none := by
  induction t with
  | nil => rfl
  | cons c t ih =>
    rw [List.mem_cons, not_or] at h
    rw [cutAt?, if_neg (Ne.symm h.1), ih h.2]
    rfl

theorem cutAt?_append {s : CodePoint} {u v : Text} (h : s ∉ u) : cutAt? s (u ++ s :: v) = some (u, v) := by
  induction u with
  | nil => simp [cutAt?]
  | cons c u ih =>
    rw [List.mem_cons, not_or] at h
    rw [List.cons_append, cutAt?, if_neg (Ne.symm h.1), ih h.2]
    rfl

end Text

theorem Directive.ofLine?_word {word value : Text} (hword : .char ' ' ∉ word) (hvalue : .char '\n' ∉ value) :
    ofLine? (.char '#' :: (word ++ .char ' ' :: value)) = some ⟨word, value⟩ := by
  have hread : Bracket.readUntil ' ' {} (word ++ .char ' ' :: value) = word := by
    rw [Bracket.readUntil, Bracket.readFrom_append hword (fun hg => absurd hg (by decide)) rfl]
    exact List.append_nil word
  have hrest : (word ++ .char ' ' :: value).drop (word.length + 1) = value := by simp
  rw [ofLine?, hread, hrest, Bracket.readUntil, Bracket.readFrom_of_notMem hvalue]

theorem Bracket.stop_notMem_readUntil {stop : CodePoint} {t u : Text} (hu : u <+: readUntil stop ⟨false, true⟩ t)
    (ho : .char '(' ∉ u) : stop ∉ u := by
  induction t generalizing u with
  | nil =>
    obtain rfl := List.prefix_nil.1 hu
    exact List.not_mem_nil
  | cons c t ih =>
    rw [readUntil, readFrom] at hu
    split at hu
    · obtain rfl := List.prefix_nil.1 hu
      exact List.not_mem_nil
    · next hc =>
      cases u with
      | nil => exact List.not_mem_nil
      | cons d u =>
        obtain ⟨rfl, hu⟩ := List.cons_prefix_cons.1 hu
        rw [List.mem_cons, not_or] at ho
        rw [if_neg fun h => ho.1 h.2.symm] at hu
        exact List.not_mem_cons_of_ne_of_not_mem (fun h => hc ⟨h.symm, rfl⟩) (ih hu ho.2)

namespace Declaration

theorem mem_parameterNames {t q : Text} (h : q ∈ parameterNames t) : q ≠ [] ∧ q.Trimmed ∧ .char ',' ∉ q := by
  obtain ⟨hq, hne⟩ := List.mem_filter.1 h
  obtain ⟨piece, hpiece, rfl⟩ := List.mem_map.1 hq
  refine ⟨of_decide_eq_true hne, Text.trimmed_trim piece, ?_⟩
  intro hc
  exact separator_notMem hpiece (Text.trim_subset piece hc)

structure Shaped (d : Declaration) : Prop where
  name_ne_nil : d.name ≠ []
  name : .char ' ' ∉ d.name ∧ .char '(' ∉ d.name
  parameters : ∀ qs, d.parameters = some qs → ∀ q ∈ qs, q ≠ [] ∧ q.Trimmed ∧ .char ',' ∉ q
  body : d.body.Trimmed

variable {value : Text} {d : Declaration}

theorem name_begins (h : parse value = .ok d) :
    d.name <+: Bracket.readUntil ' ' ⟨false, true⟩ (value.dropWhile (· = .char ' ')) ∧ .char '(' ∉ d.name := by
  obtain ⟨head, rest, rfl, -, -, ⟨hc, rfl⟩ | ⟨name, inner, hc, ⟨-, rfl⟩ | ⟨inside, glued, -, rfl⟩⟩⟩ := parse_eq_ok h
  · exact ⟨List.prefix_rfl, Text.notMem_of_cutAt?_eq_none hc⟩
  · exact ⟨⟨_, (Text.eq_append_of_cutAt? hc).symm⟩, Text.notMem_of_cutAt? hc⟩
  · exact ⟨⟨_, (Text.eq_append_of_cutAt? hc).symm⟩, Text.notMem_of_cutAt? hc⟩

theorem name_subset (h : parse value = .ok d) : d.name ⊆ value := by
  have hread := (name_begins h).1.trans (Bracket.readUntil_prefix _ _ _)
  exact List.Subset.trans hread.subset (List.dropWhile_sublist _).subset

theorem shaped_of_parse (h : parse value = .ok d) : d.Shaped := by
  obtain ⟨hhead, hopen⟩ := name_begins h
  have hspace : .char ' ' ∉ d.name := Bracket.stop_notMem_readUntil hhead hopen
  obtain ⟨head, rest, -, -, hname, ⟨-, rfl⟩ | ⟨name, inner, -, ⟨-, rfl⟩ | ⟨inside, glued, -, rfl⟩⟩⟩ := parse_eq_ok h
  · exact ⟨hname, ⟨hspace, hopen⟩, fun qs hqs => by contradiction, Text.trimmed_trim _⟩
  · refine ⟨hname, ⟨hspace, hopen⟩, ?_, Text.trimmed_trim _⟩
    rintro qs ⟨⟩ q hq
    exact mem_parameterNames hq
  · refine ⟨hname, ⟨hspace, hopen⟩, ?_, Text.trimmed_trim _⟩
    rintro qs ⟨⟩ q hq
    exact mem_parameterNames hq

end Declaration

end ScriptMacros
