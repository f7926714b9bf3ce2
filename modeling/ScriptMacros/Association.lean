namespace ScriptMacros.Association

variable {α β : Type}

theorem nodup_snoc {k : α} {l : List α} (hl : l.Nodup) (h : k ∉ l) : (l ++ [k]).Nodup := by
  simp only [List.nodup_append, hl, true_and]
  exact ⟨by simp, fun a ha b hb e => h (by simp_all)⟩

variable [DecidableEq α]

def get? (k : α) : List (α × β) → Option β
  | [] => none
  | (a, b) :: l => if a = k then some b else get? k l

def put (k : α) (v : β) : List (α × β) → List (α × β)
  | [] => [(k, v)]
  | (a, b) :: l => if a = k then (a, v) :: l else (a, b) :: put k v l

def putNew (k : α) (v : β) (l : List (α × β)) : List (α × β) :=
  if k ∈ l.map (·.1) then l else l ++ [(k, v)]

theorem keys_put (k : α) (v : β) (l : List (α × β)) :
    (put k v l).map (·.1) = if k ∈ l.map (·.1) then l.map (·.1) else l.map (·.1) ++ [k] := by
  induction l with
  | nil => simp [put]
  | cons p l ih =>
    obtain ⟨a, b⟩ := p
    by_cases h : a = k
    · simp [put, h]
    · have h' : k ≠ a := Ne.symm h
      by_cases hm : k ∈ l.map (·.1) <;> simp_all [put]

theorem keys_putNew (k : α) (v : β) (l : List (α × β)) :
    (putNew k v l).map (·.1) = if k ∈ l.map (·.1) then l.map (·.1) else l.map (·.1) ++ [k] := by
  rw [putNew]
  split <;> simp

theorem nodup_put {k : α} {v : β} {l : List (α × β)} (h : (l.map (·.1)).Nodup) :
    ((put k v l).map (·.1)).Nodup := by
  rw [keys_put]
  split
  · exact h
  · next hk => exact nodup_snoc h hk

theorem nodup_putNew {k : α} {v : β} {l : List (α × β)} (h : (l.map (·.1)).Nodup) :
    ((putNew k v l).map (·.1)).Nodup := by
  rw [keys_putNew]
  split
  · exact h
  · next hk => exact nodup_snoc h hk

theorem mem_keys_of_get? {k : α} {v : β} {l : List (α × β)} (h : get? k l = some v) : (k, v) ∈ l := by
  induction l with
  | nil => simp [get?] at h
  | cons p l ih =>
    obtain ⟨a, b⟩ := p
    by_cases hk : a = k
    · simp_all [get?]
    · simp [get?, hk] at h
      exact List.mem_cons_of_mem _ (ih h)

end ScriptMacros.Association
