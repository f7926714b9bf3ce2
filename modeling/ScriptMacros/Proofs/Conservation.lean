import ScriptMacros.Directive
import ScriptMacros.Expansion
import ScriptMacros.Proofs.Comment

namespace ScriptMacros

namespace Text

theorem trim_subset (t : Text) : t.trim ⊆ t := by
  intro c hc
  have hs : c ∈ t.trimStart := by
    have hr := (List.dropWhile_sublist isBlank).subset (List.mem_reverse.1 hc)
    exact List.mem_reverse.1 hr
  exact (List.dropWhile_sublist isBlank).subset hs

theorem eq_append_of_cutAt? {s : CodePoint} {t u v : Text} (h : cutAt? s t = some (u, v)) : t = u ++ s :: v := by
  induction t generalizing u with
  | nil => simp [cutAt?] at h
  | cons c t ih =>
    rw [cutAt?] at h
    split at h
    · next hc => simp_all
    · obtain ⟨⟨x, y⟩, hx, he⟩ := Option.map_eq_some_iff.1 h
      cases he
      rw [ih hx, List.cons_append]

end Text

namespace Bracket

theorem readFrom_prefix (stop : CodePoint) (p : Protection) (n : Nat) (escaped : Bool) (t : Text) :
    readFrom stop p n escaped t <+: t := by
  induction t generalizing n escaped with
  | nil => exact List.nil_prefix
  | cons c t ih =>
    cases n with
    | succ n => exact (List.prefix_cons_inj c).2 (ih n false)
    | zero =>
      rw [readFrom]
      split
      · exact List.nil_prefix
      · exact (List.prefix_cons_inj c).2 (ih _ _)

theorem readUntil_prefix (stop : CodePoint) (p : Protection) (t : Text) : readUntil stop p t <+: t :=
  readFrom_prefix stop p 0 false t

theorem mem_of_mem_piecesFrom {passed t u : Text} {level : Int} {c : CodePoint} (hu : u ∈ piecesFrom passed level t)
    (hc : c ∈ u) : c ∈ passed ∨ c ∈ t := by
  induction t generalizing passed level with
  | nil =>
    obtain rfl : u = passed.reverse := by simpa [piecesFrom] using hu
    exact Or.inl (List.mem_reverse.1 hc)
  | cons d t ih =>
    rw [piecesFrom] at hu
    split at hu
    · rcases List.mem_cons.1 hu with rfl | hu
      · exact Or.inl (List.mem_reverse.1 hc)
      · rcases ih hu with h | h
        · simp at h
        · exact Or.inr (List.mem_cons_of_mem d h)
    · rcases ih hu with h | h
      · rcases List.mem_cons.1 h with rfl | h
        · exact Or.inr List.mem_cons_self
        · exact Or.inl h
      · exact Or.inr (List.mem_cons_of_mem d h)

theorem exists_of_mem_arguments {t a : Text} (h : a ∈ arguments t) : ∃ u ∈ piecesFrom [] 0 t, u.trim = a := by
  rw [arguments] at h
  split at h
  · contradiction
  · exact List.mem_map.1 h

theorem arguments_subset {t a : Text} (h : a ∈ arguments t) : a ⊆ t := by
  obtain ⟨u, hu, rfl⟩ := exists_of_mem_arguments h
  intro c hc
  have := mem_of_mem_piecesFrom hu (Text.trim_subset u hc)
  simpa using this

end Bracket

namespace Line

theorem mem_normalize {t : Text} {c : CodePoint} (h : c ∈ normalize t) : c ≠ '\t' ∧ (c ∈ t ∨ c = ' ') := by
  obtain ⟨d, hd, rfl⟩ := List.mem_map.1 h
  have hm : d ∈ t := (List.dropWhile_sublist _).subset ((dropCommentsFrom_sublist 0 _).subset hd)
  split
  · exact ⟨by decide, Or.inr rfl⟩
  · next hc => exact ⟨hc, Or.inl hm⟩

end Line

theorem Directive.value_subset {line : Text} {d : Directive} (h : Directive.ofLine? line = some d) :
    d.value ⊆ line := by
  simp only [Directive.ofLine?] at h
  split at h
  · next t =>
    cases h
    intro c hc
    have hv := (Bracket.readUntil_prefix _ _ _).subset hc
    apply List.mem_cons_of_mem
    exact List.mem_of_mem_drop hv
  · contradiction

theorem Directive.isSome_ofLine? {line : Text} : (ofLine? line).isSome ↔ line.head? = some (.char '#') := by
  simp only [ofLine?]
  split
  · simp
  · next h =>
    cases line with
    | nil => simp
    | cons c t =>
      have hc : c ≠ '#' := fun he => h t (by rw [he])
      simpa using hc

theorem Directive.ofLine?_eq_none_iff {line : Text} : ofLine? line = none ↔ line.head? ≠ some (.char '#') := by
  rw [← Option.not_isSome_iff_eq_none, isSome_ofLine?]

theorem Declaration.parse_eq_ok {value : Text} {d : Declaration} (h : Declaration.parse value = .ok d) :
    ∃ head rest : Text, head = Bracket.readUntil ' ' ⟨false, true⟩ (value.dropWhile (· = .char ' ')) ∧
      value.dropWhile (· = .char ' ') = head ++ rest ∧ d.name ≠ [] ∧
      ((head.cutAt? (.char '(') = none ∧ d = ⟨head, none, rest.trim⟩) ∨
        ∃ name inner, head.cutAt? (.char '(') = some (name, inner) ∧
          ((Bracket.cut? inner = none ∧ d = ⟨name, some (parameterNames inner), rest.trim⟩) ∨
            ∃ inside glued : Text, Bracket.cut? inner = some (inside, glued) ∧
              d = ⟨name, some (parameterNames inside), Text.trim (glued ++ rest)⟩)) := by
  obtain ⟨rest, hr⟩ := Bracket.readUntil_prefix ' ' ⟨false, true⟩ (value.dropWhile (· = .char ' '))
  refine ⟨_, rest, rfl, hr.symm, ?_⟩
  generalize hh : Bracket.readUntil ' ' ⟨false, true⟩ (value.dropWhile (· = .char ' ')) = head at hr ⊢
  have hd : (value.dropWhile (· = .char ' ')).drop head.length = rest := by simp [← hr]
  rw [Declaration.parse] at h
  simp only [hh, hd] at h
  cases hcut : head.cutAt? (.char '(') with
  | none =>
    simp only [hcut] at h
    split at h
    · contradiction
    · next hn =>
      cases h
      exact ⟨hn, Or.inl ⟨rfl, rfl⟩⟩
  | some q =>
    obtain ⟨name, inner⟩ := q
    simp only [hcut] at h
    cases hg : Bracket.cut? inner with
    | none =>
      simp only [hg] at h
      split at h
      · contradiction
      · next hn =>
        cases h
        exact ⟨hn, Or.inr ⟨name, inner, rfl, Or.inl ⟨hg, rfl⟩⟩⟩
    | some q =>
      obtain ⟨inside, glued⟩ := q
      simp only [hg] at h
      split at h
      · contradiction
      · next hn =>
        cases h
        exact ⟨hn, Or.inr ⟨name, inner, rfl, Or.inr ⟨inside, glued, hg, rfl⟩⟩⟩

theorem Declaration.body_subset {value : Text} {d : Declaration} (h : Declaration.parse value = .ok d) :
    d.body ⊆ value := by
  obtain ⟨head, rest, -, hv, -, hd⟩ := Declaration.parse_eq_ok h
  have hs : head ++ rest ⊆ value := hv ▸ (List.dropWhile_sublist _).subset
  have hrest : rest ⊆ value := List.Subset.trans (List.subset_append_right head rest) hs
  rcases hd with ⟨-, rfl⟩ | ⟨name, inner, hc, ⟨-, rfl⟩ | ⟨inside, glued, hg, rfl⟩⟩
  · exact List.Subset.trans (Text.trim_subset _) hrest
  · exact List.Subset.trans (Text.trim_subset _) hrest
  · apply List.Subset.trans (Text.trim_subset _)
    apply List.append_subset.2 ⟨_, hrest⟩
    intro c hm
    apply hs
    rw [Text.eq_append_of_cutAt? hc, Bracket.eq_append_of_cut? hg]
    simp [hm]

namespace Template

theorem startsAt_eq_true {name t : Text} : ((Text.after? name t).map fun r => isBorder r.head?).getD false = true ↔
    ∃ r, t = name ++ r ∧ isBorder r.head? = true := by
  cases ha : Text.after? name t with
  | none =>
    have hnone := Text.after?_eq_none.1 ha
    simp only [Option.map_none, Option.getD_none, Bool.false_eq_true, false_iff]
    rintro ⟨r, rfl, -⟩
    simp at hnone
  | some r =>
    obtain rfl := Text.after?_eq_some.1 ha
    simp

theorem parameterAt?_eq_some {ps : List Parameter} {before : Option CodePoint} {t : Text} {q : Parameter}
    (h : parameterAt? ps before t = some q) :
    isBorder before = true ∧ ∃ r, t = q.name ++ r ∧ isBorder r.head? = true := by
  rw [parameterAt?] at h
  split at h
  · next hb =>
    have hstart := List.find?_some h
    exact ⟨hb, startsAt_eq_true.1 hstart⟩
  · contradiction

theorem useAt?_eq_some {ps : List Parameter} {before : Option CodePoint} {t : Text} {u : Use}
    (h : useAt? ps before t = some u) :
    ∃ r, t = List.replicate u.marks (.char '#') ++ r ∧
      parameterAt? ps (if u.marks = 0 then before else some (.char '#')) r = some u.parameter := by
  induction t generalizing before u with
  | nil =>
    obtain ⟨q, hq, rfl⟩ := Option.map_eq_some_iff.1 h
    exact ⟨[], rfl, hq⟩
  | cons c t ih =>
    rw [useAt?] at h
    split at h
    · next v hv =>
      cases h
      split at hv
      · next hc =>
        obtain ⟨r, hr, hq⟩ := ih hv
        rw [ite_self] at hq
        exact ⟨r, by simp [hc, List.replicate_succ, ← hr], hq⟩
      · contradiction
    · obtain ⟨q, hq, rfl⟩ := Option.map_eq_some_iff.1 h
      exact ⟨c :: t, rfl, hq⟩

theorem eq_append_of_useAt? {ps : List Parameter} {before : Option CodePoint} {t : Text} {u : Use}
    (h : useAt? ps before t = some u) : ∃ r, t = List.replicate u.marks (.char '#') ++ (u.parameter.name ++ r) := by
  obtain ⟨r, rfl, hq⟩ := useAt?_eq_some h
  obtain ⟨-, r, rfl, -⟩ := parameterAt?_eq_some hq
  exact ⟨r, rfl⟩

theorem mem_unpaired {marks : Nat} {c : CodePoint} (h : .literal c ∈ unpaired marks) : c = '#' ∧ 0 < marks := by
  obtain ⟨hn, hc⟩ := List.mem_replicate.1 h
  cases hc
  exact ⟨rfl, by omega⟩

theorem literal_mem_of_use {ps : List Parameter} {before : Option CodePoint} {t : Text} {u : Use} {c : CodePoint}
    (hu : useAt? ps before t = some u) (h : .literal c ∈ u.segments) : c ∈ t := by
  obtain ⟨r, rfl⟩ := eq_append_of_useAt? hu
  rw [Use.segments] at h
  split at h
  · simp at h
  · have hm : .literal c ∈ unpaired u.marks := by simpa using h
    obtain ⟨rfl, hp⟩ := mem_unpaired hm
    apply List.mem_append_left
    exact List.mem_replicate.2 ⟨by omega, rfl⟩

theorem literal_mem_segmentsFrom {ps : List Parameter} {n : Nat} {before : Option CodePoint} {t : Text} {c : CodePoint}
    (h : .literal c ∈ segmentsFrom ps n before t) : c ∈ t := by
  fun_induction segmentsFrom ps n before t with
  | case1 before =>
    cases hu : useAt? ps before [] with
    | none => simp [hu] at h
    | some u => exact literal_mem_of_use hu (by simpa [hu] using h)
  | case2 => simp at h
  | case3 _ _ _ _ ih => exact List.mem_cons_of_mem _ (ih h)
  | case4 before d t u hu _ ih =>
    rcases List.mem_append.1 h with h | h
    · exact literal_mem_of_use hu h
    · rcases List.mem_cons.1 h with h | h
      · cases h
        exact List.mem_cons_self
      · exact List.mem_cons_of_mem _ (ih h)
  | case5 before d t u hu _ _ ih =>
    rcases List.mem_append.1 h with h | h
    · exact literal_mem_of_use hu h
    · exact List.mem_cons_of_mem _ (ih h)
  | case6 before d t _ n hn ih =>
    rcases List.mem_append.1 h with h | h
    · obtain ⟨rfl, -⟩ := mem_unpaired h
      have hd : .char '#' ∈ (d :: t).takeWhile (· = .char '#') := by
        by_cases hd : d = '#'
        · simp [hd]
        · simp [hd] at hn
      exact (List.takeWhile_sublist _).subset hd
    · exact List.mem_cons_of_mem _ (ih h)
  | case7 before d t _ _ ih =>
    rcases List.mem_cons.1 h with h | h
    · cases h
      exact List.mem_cons_self
    · exact List.mem_cons_of_mem _ (ih h)

theorem mem_fill {arguments : List Text} {t : Template} {c : CodePoint} (h : c ∈ t.fill arguments) :
    .literal c ∈ t ∨ (∃ a ∈ arguments, c ∈ a) ∨ c = '"' := by
  have hget : ∀ i, c ∈ arguments.getD i [] → ∃ a ∈ arguments, c ∈ a := by
    intro i hc
    rw [List.getD_eq_getElem?_getD] at hc
    cases hi : arguments[i]? with
    | none => simp [hi] at hc
    | some a => exact ⟨a, List.mem_of_getElem? hi, by simpa [hi] using hc⟩
  obtain ⟨s, hs, hc⟩ := List.mem_flatMap.1 h
  cases s with
  | literal d =>
    obtain rfl : c = d := by simpa [Segment.fill] using hc
    exact Or.inl hs
  | argument i quoted =>
    cases quoted with
    | false => exact Or.inr (Or.inl (hget i hc))
    | true =>
      rcases List.mem_append.1 hc with hc | hc
      · rcases List.mem_cons.1 hc with hc | hc
        · exact Or.inr (Or.inr hc)
        · exact Or.inr (Or.inl (hget i hc))
      · exact Or.inr (Or.inr (List.mem_singleton.1 hc))

end Template

theorem mem_substitute {body : Text} {parameters arguments : List Text} {c : CodePoint}
    (h : c ∈ substitute body parameters arguments) : c ∈ body ∨ (∃ a ∈ arguments, c ∈ a) ∨ c = '"' :=
  (Template.mem_fill h).imp_left Template.literal_mem_segmentsFrom

namespace Invocation

theorem exists_of_first? {startsAt? : Text → Option Invocation} {t : Text} {i : Invocation}
    (h : first? startsAt? t = some i) :
    ∃ before rest j, t = before ++ rest ∧ startsAt? rest = some j ∧ i = j.shift before.length := by
  induction t generalizing i with
  | nil =>
    rw [first?_nil] at h
    exact ⟨[], [], i, rfl, h, rfl⟩
  | cons c t ih =>
    rw [first?_cons, Option.or_eq_some_iff] at h
    rcases h with h | ⟨-, h⟩
    · exact ⟨[], c :: t, i, rfl, h, rfl⟩
    · obtain ⟨j, hj, rfl⟩ := Option.map_eq_some_iff.1 h
      obtain ⟨before, rest, k, rfl, hk, rfl⟩ := ih hj
      exact ⟨c :: before, rest, k, rfl, hk, by simp [shift, Nat.add_assoc]⟩

theorem first?_of_startsAt {startsAt? : Text → Option Invocation} {t : Text} {i : Invocation}
    (h : startsAt? t = some i) : first? startsAt? t = some i := by
  cases t with
  | nil => rw [first?_nil, h]
  | cons c t =>
    rw [first?_cons, h]
    rfl

theorem mem_result {i : Invocation} {line : Text} {c : CodePoint} (hi : i.Cuts line) (h : c ∈ i.result line) :
    c ∈ line ∨ c ∈ i.replacement := by
  obtain ⟨before, hb, rfl⟩ := hi
  rw [result_eq hb] at h
  rcases List.mem_append.1 h with h | h
  · rcases List.mem_append.1 h with h | h
    · apply Or.inl
      apply List.mem_append_left
      exact List.mem_append_left _ h
    · exact Or.inr h
  · exact Or.inl (List.mem_append_right _ h)

end Invocation

theorem Macro.mem_replacement {m : Macro} {line : Text} {i : Invocation} {c : CodePoint}
    (hi : m.invocation? line = some i) (h : c ∈ i.replacement) : c ∈ m.body ∨ c ∈ line ∨ c = '"' := by
  rw [invocation?_eq] at hi
  obtain ⟨before, rest, j, rfl, hj, rfl⟩ := Invocation.exists_of_first? hi
  change c ∈ j.replacement at h
  rw [invocationAt?] at hj
  split at hj
  · contradiction
  · cases hj
    exact Or.inl h
  · next tail parameters hr _ =>
    obtain ⟨⟨inside, after⟩, hc, rfl⟩ := Option.map_eq_some_iff.1 hj
    rcases mem_substitute h with h | ⟨a, ha, h⟩ | h
    · exact Or.inl h
    · have ht := Bracket.arguments_subset ha h
      rw [Text.after?_eq_some.1 hr, Bracket.eq_append_of_cut? hc]
      simp [ht]
    · exact Or.inr (Or.inr h)
  · contradiction

namespace Expansion

theorem firstInvocation?_eq_some {ms : List Macro} {line : Text} {m : Macro} {i : Invocation}
    (h : firstInvocation? ms line = some (m, i)) : m ∈ ms ∧ m.invocation? line = some i := by
  obtain ⟨n, hn, hi⟩ := List.exists_of_findSome?_eq_some h
  obtain ⟨j, hj, he⟩ := Option.map_eq_some_iff.1 hi
  cases he
  exact ⟨hn, hj⟩

theorem result_eq_self_iff {ms : List Macro} {line : Text} {m : Macro} {i : Invocation}
    (h : firstInvocation? ms line = some (m, i)) : i.result line = line ↔ i.replacement = i.written :=
  Invocation.result_eq_self_iff (Macro.cuts_of_invocation? (firstInvocation?_eq_some h).2)

variable {P : CodePoint → Prop} {ms : List Macro}

theorem forall_mem_result (hq : P '"') (hb : ∀ m ∈ ms, ∀ c ∈ m.body, P c) {line : Text} (hl : ∀ c ∈ line, P c)
    {m : Macro} {i : Invocation} (h : firstInvocation? ms line = some (m, i)) : ∀ c ∈ i.result line, P c := by
  obtain ⟨hm, hi⟩ := firstInvocation?_eq_some h
  intro c hc
  rcases Invocation.mem_result (Macro.cuts_of_invocation? hi) hc with hc | hc
  · exact hl c hc
  · rcases Macro.mem_replacement hi hc with hc | hc | rfl
    · exact hb m hm c hc
    · exact hl c hc
    · exact hq

theorem forall_mem_expandWithin (hq : P '"') (hb : ∀ m ∈ ms, ∀ c ∈ m.body, P c) {left count : Nat}
    {line out : Text} (hl : ∀ c ∈ line, P c) (h : expandWithin ms left count line = .ok out) :
    ∀ c ∈ out, P c := by
  fun_induction expandWithin ms left count line with
  | case1 =>
    cases h
    exact hl
  | case2 => contradiction
  | case3 => contradiction
  | case4 _ _ _ _ hf _ _ ih => exact ih (forall_mem_result hq hb hl hf) h

theorem forall_mem_expand (hq : P '"') (hb : ∀ m ∈ ms, ∀ c ∈ m.body, P c) {limit : Limit}
    {line out : Text} (hl : ∀ c ∈ line, P c) (h : expand ms limit line = .ok out) : ∀ c ∈ out, P c := by
  rw [expand] at h
  split at h
  · exact forall_mem_expandWithin hq hb hl h
  · split at h
    · cases h
      exact hl
    · contradiction

end Expansion

end ScriptMacros
