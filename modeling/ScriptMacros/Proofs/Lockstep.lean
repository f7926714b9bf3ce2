import ScriptMacros.Proofs.Conservation

namespace ScriptMacros

theorem Macro.exists_of_invocation? {m : Macro} {line : Text} {i : Invocation} (h : m.invocation? line = some i) :
    ∃ before rest, line = before ++ (m.name ++ rest) ∧ before.length = i.start := by
  rw [invocation?_eq] at h
  obtain ⟨before, rest, j, rfl, hj, rfl⟩ := Invocation.exists_of_first? h
  rw [invocationAt?] at hj
  split at hj
  · contradiction
  · next hrest _ =>
    cases hj
    exact ⟨before, _, by rw [Text.after?_eq_some.1 hrest], by simp [Invocation.shift]⟩
  · next hrest _ =>
    obtain ⟨-, -, rfl⟩ := Option.map_eq_some_iff.1 hj
    exact ⟨before, _, by rw [Text.after?_eq_some.1 hrest], by simp [Invocation.shift]⟩
  · contradiction

theorem Macro.name_infix {m : Macro} {line : Text} {i : Invocation} (h : m.invocation? line = some i) :
    m.name <:+: line := by
  obtain ⟨before, rest, rfl, -⟩ := exists_of_invocation? h
  exact ⟨before, rest, List.append_assoc ..⟩

namespace Expansion

/-- As long as a line has `P`, the second list of macros does to its image under `f` what the first does to the line. -/
structure Mirrors (P : Text → Prop) (f : Text → Text) (ms ms' : List Macro) : Prop where
  rests : ∀ {line}, P line → firstInvocation? ms line = none → firstInvocation? ms' (f line) = none
  steps : ∀ {line m i}, P line → firstInvocation? ms line = some (m, i) →
    ∃ m' i', firstInvocation? ms' (f line) = some (m', i') ∧ m'.name = m.name ∧
      (i'.replacement = i'.written ↔ i.replacement = i.written) ∧ i'.result (f line) = f (i.result line) ∧
      P (i.result line)

namespace Mirrors

variable {P : Text → Prop} {f : Text → Text} {ms ms' : List Macro} {line : Text}

theorem of_map {g : Macro → Macro} {e : Invocation → Invocation}
    (hfirst : ∀ {line}, P line →
      firstInvocation? ms' (f line) = (firstInvocation? ms line).map fun (m, i) => (g m, e i))
    (hname : ∀ m, (g m).name = m.name) (hsame : ∀ i, (e i).replacement = (e i).written ↔ i.replacement = i.written)
    (hresult : ∀ {line m i}, P line → firstInvocation? ms line = some (m, i) →
      (e i).result (f line) = f (i.result line) ∧ P (i.result line)) : Mirrors P f ms ms' where
  rests := by
    intro line hline hf
    rw [hfirst hline, hf]
    rfl
  steps := by
    intro line m i hline hf
    refine ⟨g m, e i, ?_, hname m, hsame i, hresult hline hf⟩
    rw [hfirst hline, hf]
    rfl

theorem expandWithin (h : Mirrors P f ms ms') (hline : P line) (left count : Nat) :
    Expansion.expandWithin ms' left count (f line) = (Expansion.expandWithin ms left count line).map f := by
  fun_induction Expansion.expandWithin ms left count line with
  | case1 left count line hf =>
    rw [Expansion.expandWithin, h.rests hline hf]
    rfl
  | case2 left count line m i hf hi =>
    obtain ⟨m', i', hf', hname, hsame, -⟩ := h.steps hline hf
    rw [Expansion.expandWithin, hf']
    dsimp only
    rw [if_pos (hsame.2 hi), hname]
    rfl
  | case3 count line m i hf hi =>
    obtain ⟨m', i', hf', hname, hsame, -⟩ := h.steps hline hf
    rw [Expansion.expandWithin, hf']
    dsimp only
    rw [if_neg (mt hsame.1 hi), hname]
    rfl
  | case4 count line m i hf hi left ih =>
    obtain ⟨m', i', hf', -, hsame, hresult, hnext⟩ := h.steps hline hf
    rw [Expansion.expandWithin, hf']
    dsimp only
    rw [if_neg (mt hsame.1 hi), hresult]
    exact ih hnext

theorem expand (h : Mirrors P f ms ms') (hline : P line) (limit : Limit) :
    Expansion.expand ms' limit (f line) = (Expansion.expand ms limit line).map f := by
  rw [Expansion.expand, Expansion.expand]
  cases limit.allowed? with
  | some n => exact h.expandWithin hline n 0
  | none =>
    cases hf : firstInvocation? ms line with
    | none =>
      rw [h.rests hline hf]
      rfl
    | some q =>
      obtain ⟨m', i', hf', hname, hsame, -⟩ := h.steps hline hf
      rw [hf']
      dsimp only
      rw [hname, if_congr hsame rfl rfl]
      rfl

end Mirrors

variable {ms : List Macro} {line : Text}

theorem firstInvocation?_map {g : Macro → Macro} {f : Invocation → Invocation} {line' : Text}
    (h : ∀ m ∈ ms, (g m).invocation? line' = (m.invocation? line).map f) :
    firstInvocation? (ms.map g) line' = (firstInvocation? ms line).map fun (m, i) => (g m, f i) := by
  induction ms with
  | nil => rfl
  | cons m ms ih =>
    obtain ⟨hm, hms⟩ := List.forall_mem_cons.1 h
    have hrest := ih hms
    rw [firstInvocation?, firstInvocation?] at hrest
    rw [List.map_cons, firstInvocation?, firstInvocation?, List.findSome?_cons, List.findSome?_cons, hm]
    cases m.invocation? line with
    | none => exact hrest
    | some i => rfl

theorem firstInvocation?_filter {p : Macro → Bool} (h : ∀ m ∈ ms, ¬p m → m.invocation? line = none) :
    firstInvocation? (ms.filter p) line = firstInvocation? ms line := by
  induction ms with
  | nil => rfl
  | cons m ms ih =>
    obtain ⟨hm, hms⟩ := List.forall_mem_cons.1 h
    have hrest := ih hms
    rw [firstInvocation?] at hrest ⊢
    by_cases hp : p m
    · rw [List.filter_cons_of_pos hp, List.findSome?_cons, hrest, firstInvocation?, firstInvocation?,
        List.findSome?_cons]
    · rw [List.filter_cons_of_neg hp, hrest, firstInvocation?, firstInvocation?, List.findSome?_cons, hm hp]
      rfl

def without (c : CodePoint) (ms : List Macro) : List Macro := ms.filter fun m => c ∉ m.name

theorem mirrors_without {c : CodePoint} (hquote : c ≠ '"') (hbodies : ∀ m ∈ without c ms, c ∉ m.body) :
    Mirrors (c ∉ ·) id (without c ms) ms := by
  have hnone : ∀ {line}, c ∉ line → ∀ m ∈ ms, ¬decide (c ∉ m.name) → m.invocation? line = none := by
    intro line hline m _ hname
    have hc : c ∈ m.name := by simpa using hname
    cases hi : m.invocation? line with
    | none => rfl
    | some i => exact absurd ((Macro.name_infix hi).subset hc) hline
  refine Mirrors.of_map (g := id) (e := id) ?_ (fun _ => rfl) (fun _ => Iff.rfl) ?_
  · intro line hline
    rw [without, firstInvocation?_filter (hnone hline)]
    exact Option.map_id'.symm
  · intro line m i hline hf
    have hresult := forall_mem_result (P := (· ≠ c)) hquote.symm
      (fun m hm a ha => ne_of_mem_of_not_mem ha (hbodies m hm)) (fun a ha => ne_of_mem_of_not_mem ha hline) hf
    exact ⟨rfl, fun hc => hresult c hc rfl⟩

theorem expand_without {c : CodePoint} (hquote : c ≠ '"') (hbodies : ∀ m ∈ without c ms, c ∉ m.body) (hline : c ∉ line)
    (limit : Limit) : expand ms limit line = expand (without c ms) limit line := by
  have h := (mirrors_without hquote hbodies).expand hline limit
  rwa [Except.map_id] at h

end Expansion

def Registration.plain (name : String) (parameters : Option (List Text)) (body : String) : Registration :=
  ⟨name.toText, parameters, { value := body.toText, location := ⟨[], 1, 1⟩ }⟩

/-- A macro whose name has a character that neither the line nor another body has makes no difference, whenever it was
defined and whatever it stands for. Double quotes can come up where an argument is put in quotes. -/
theorem MacroTable.expand_unrelated {t t' : MacroTable} {before after : List Macro} {m : Macro}
    (ht : t.macros = before ++ after) (ht' : t'.macros = before ++ m :: after) {line : Text} {c : CodePoint}
    (hc : c ∈ m.name) (hquote : c ≠ '"') (hline : c ∉ line) (hbodies : ∀ x ∈ t.macros, c ∉ x.body) (limit : Limit) :
    t'.expand limit line = t.expand limit line := by
  have hsame : Expansion.without c t'.byLength = Expansion.without c t.byLength := by
    rw [byLength, byLength, Expansion.without, Expansion.without, ← longestFirst_filter, ← longestFirst_filter, ht', ht]
    simp [List.filter_append, hc]
  have hothers : ∀ x ∈ Expansion.without c t.byLength, c ∉ x.body :=
    fun x hx => hbodies x (mem_longestFirst.1 (List.mem_filter.1 hx).1)
  calc
    t'.expand limit line = Expansion.expand (Expansion.without c t'.byLength) limit line :=
      Expansion.expand_without hquote (hsame ▸ hothers) hline limit
    _ = Expansion.expand (Expansion.without c t.byLength) limit line := by rw [hsame]
    _ = t.expand limit line := (Expansion.expand_without hquote hothers hline limit).symm

theorem MacroTable.expand_unrelated_between :
    let quoting := Registration.plain "Q" (some ["x".toText]) "#x~"
    let unrelated := Registration.plain "\"Q!" (some ["x".toText]) "Q(x) !"
    let looping := Registration.plain "A" none "A"
    let t := ofList [quoting, looping]
    let t' := ofList [quoting, unrelated, looping]
    t.macros = [quoting.fresh] ++ [looping.fresh] ∧
      t'.macros = [quoting.fresh] ++ unrelated.fresh :: [looping.fresh] ∧ .char '!' ∈ unrelated.fresh.name ∧
      CodePoint.char '!' ≠ '"' ∧ .char '!' ∉ "Q(b)Q(c)".toText ∧ .char '!' ∉ "Q(A)".toText ∧
      (∀ x ∈ t.macros, .char '!' ∉ x.body) ∧
      t.expand (.count 2) "Q(b)Q(c)".toText = .ok "\"b\"~\"c\"~".toText ∧
      t'.expand (.count 2) "Q(b)Q(c)".toText = t.expand (.count 2) "Q(b)Q(c)".toText ∧
      t.expand (.count 2) "Q(A)".toText = .error (.recursion "A".toText 2) ∧
      t'.expand (.count 2) "Q(A)".toText = t.expand (.count 2) "Q(A)".toText := by
  intro quoting unrelated looping t t'
  have ht : t.macros = [quoting.fresh] ++ [looping.fresh] := by decide +kernel
  have ht' : t'.macros = [quoting.fresh] ++ unrelated.fresh :: [looping.fresh] := by decide +kernel
  have hc : .char '!' ∈ unrelated.fresh.name := by decide
  have hquote : CodePoint.char '!' ≠ '"' := by decide
  have hline : .char '!' ∉ "Q(b)Q(c)".toText := by decide +kernel
  have hloop : .char '!' ∉ "Q(A)".toText := by decide +kernel
  have hbodies : ∀ x ∈ t.macros, .char '!' ∉ x.body := by decide +kernel
  exact ⟨ht, ht', hc, hquote, hline, hloop, hbodies,
    by decide +kernel, expand_unrelated ht ht' hc hquote hline hbodies (.count 2),
    by decide +kernel, expand_unrelated ht ht' hc hquote hloop hbodies (.count 2)⟩

end ScriptMacros
