namespace ScriptMacros

theorem exists_of_map_eq_ok {ε α β : Type} {f : α → β} {x : Except ε α} {b : β} (h : x.map f = .ok b) :
    ∃ a, x = .ok a ∧ f a = b := by
  cases x with
  | error e => contradiction
  | ok a =>
    cases h
    exact ⟨a, rfl, rfl⟩

theorem map_eq_error_iff {ε α β : Type} {f : α → β} {x : Except ε α} {e : ε} : x.map f = .error e ↔ x = .error e := by
  cases x <;> simp [Except.map]

theorem map_map {ε α β γ : Type} (x : Except ε α) (f : α → β) (k : β → γ) :
    (x.map f).map k = x.map fun a => k (f a) := by
  cases x with
  | error e => rfl
  | ok a => rfl

theorem map_same {ε α : Type} (x : Except ε α) : (x.map fun a => a) = x := by
  cases x with
  | error e => rfl
  | ok a => rfl

theorem mapError_eq_ok_iff {ε ε' α : Type} {x : Except ε α} {k : ε → ε'} {a : α} :
    x.mapError k = .ok a ↔ x = .ok a := by
  cases x with
  | error e => exact ⟨(nomatch ·), (nomatch ·)⟩
  | ok b =>
    constructor
    · rintro ⟨⟩
      rfl
    · rintro ⟨⟩
      rfl

theorem exists_of_mapError_eq_error {ε ε' α : Type} {x : Except ε α} {k : ε → ε'} {e : ε'}
    (h : x.mapError k = .error e) : ∃ b, x = .error b ∧ k b = e := by
  cases x with
  | error b => exact ⟨b, rfl, Except.error.inj h⟩
  | ok a => contradiction

theorem exists_of_bind_eq_ok {ε α β : Type} {x : Except ε α} {f : α → Except ε β} {b : β} (h : x >>= f = .ok b) :
    ∃ a, x = .ok a ∧ f a = .ok b := by
  cases x with
  | error err => contradiction
  | ok a => exact ⟨a, rfl, h⟩

theorem exists_of_foldlM_eq_error {ε α β : Type} {k : β → α → Except ε β} {l : List α} {b : β} {e : ε}
    (h : l.foldlM k b = .error e) :
    ∃ before x after c, l = before ++ x :: after ∧ before.foldlM k b = .ok c ∧ k c x = .error e := by
  induction l generalizing b with
  | nil => contradiction
  | cons x l ih =>
    rw [List.foldlM_cons] at h
    cases hx : k b x with
    | error e' =>
      rw [hx] at h
      cases h
      exact ⟨[], x, l, b, rfl, rfl, hx⟩
    | ok c =>
      rw [hx] at h
      obtain ⟨before, y, after, d, rfl, hbefore, hy⟩ := ih h
      refine ⟨x :: before, y, after, d, rfl, ?_, hy⟩
      rw [List.foldlM_cons, hx]
      exact hbefore

end ScriptMacros
