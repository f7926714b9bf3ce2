import ScriptMacros.Proofs.Path

namespace ScriptMacros

namespace Text

section

variable {α : Type} [DecidableEq α]

def halve (s : α) : List α → List α
  | [] => []
  | [c] => [c]
  | c :: d :: t => if c = s ∧ d = s then s :: halve s t else c :: halve s (d :: t)

/-- As many rounds as it takes until no two separators stand side by side. -/
inductive Rounds (s : α) : List α → Nat → List α → Prop
  | done {t} : ¬[s, s] <:+: t → Rounds s t 0 t
  | next {t n u} : [s, s] <:+: t → Rounds s (halve s t) n u → Rounds s t (n + 1) u

variable {s : α} {t u : List α} {n : Nat}

theorem head?_halve (s : α) (t : List α) : (halve s t).head? = t.head? := by
  fun_cases halve s t with
  | case1 => rfl
  | case2 => rfl
  | case3 c d t h => simp [h.1]
  | case4 => rfl

theorem length_halve_le (s : α) (t : List α) : (halve s t).length ≤ t.length := by
  fun_induction halve s t with
  | case1 => exact Nat.le_refl _
  | case2 => exact Nat.le_refl _
  | case3 c d t h ih =>
    simp only [List.length_cons]
    omega
  | case4 c d t h ih => exact Nat.succ_le_succ ih

theorem length_halve_lt (h : [s, s] <:+: t) : (halve s t).length < t.length := by
  fun_induction halve s t with
  | case1 => simp at h
  | case2 c =>
    have := h.length_le
    contradiction
  | case3 c d t hc ih =>
    have := length_halve_le s t
    simp only [List.length_cons]
    omega
  | case4 c d t hc ih =>
    apply Nat.succ_lt_succ
    apply ih
    -- The two are not the first two, which would have become one.
    refine (List.infix_cons_iff.1 h).resolve_left ?_
    intro hp
    obtain ⟨he, hp⟩ := List.cons_prefix_cons.1 hp
    exact hc ⟨he.symm, (List.cons_prefix_cons.1 hp).1.symm⟩

theorem squeeze_halve (s : α) (t : List α) : squeeze s (halve s t) = squeeze s t := by
  fun_induction halve s t with
  | case1 => rfl
  | case2 => rfl
  | case3 c d t h ih =>
    obtain ⟨rfl, rfl⟩ := h
    simp [squeeze, head?_halve, ih]
  | case4 c d t h ih => rw [squeeze, squeeze, head?_halve, ih]

theorem squeeze_of_not_infix (h : ¬[s, s] <:+: t) : squeeze s t = t := by
  induction t with
  | nil => rfl
  | cons c t ih =>
    have hnot : ¬(c = s ∧ t.head? = some s) := by
      rintro ⟨rfl, ht⟩
      obtain ⟨t, rfl⟩ := List.head?_eq_some_iff.1 ht
      exact h (List.prefix_append [c, c] t).isInfix
    rw [squeeze, if_neg hnot, ih fun hi => h (List.infix_cons hi)]

theorem Rounds.eq_squeeze (h : Rounds s t n u) : squeeze s t = u := by
  induction h with
  | done hnot => exact squeeze_of_not_infix hnot
  | next _ _ ih => rw [← ih, squeeze_halve]

theorem exists_rounds (s : α) (t : List α) : ∃ n u, Rounds s t n u := by
  induction hn : t.length using Nat.strong_induction_on generalizing t with
  | _ n ih =>
    by_cases h : [s, s] <:+: t
    · obtain ⟨k, u, hr⟩ := ih _ (hn ▸ length_halve_lt h) _ rfl
      exact ⟨k + 1, u, .next h hr⟩
    · exact ⟨0, t, .done h⟩

theorem squeeze_cons_of_ne {c : α} (hc : c ≠ s) (t : List α) : squeeze s (c :: t) = c :: squeeze s t :=
  if_neg fun h => hc h.1

theorem squeeze_replicate {k : Nat} (hk : 0 < k) (ht : t.head? ≠ some s) :
    squeeze s (List.replicate k s ++ t) = s :: squeeze s t := by
  induction k with
  | zero => contradiction
  | succ k ih =>
    cases k with
    | zero => simp [squeeze, ht]
    | succ k =>
      rw [List.replicate_succ, List.cons_append, squeeze, if_pos ⟨rfl, rfl⟩]
      exact ih (Nat.succ_pos k)

end

end Text

namespace Include

def IsSlash (p : CodePoint) : Prop := p = .char '/' ∨ p = .char '\\'

instance IsSlash.decidable (p : CodePoint) : Decidable (IsSlash p) := inferInstanceAs (Decidable (_ ∨ _))

inductive OneSlash : Text → Text → Prop
  | nil : OneSlash [] []
  | run {l t u} : l ≠ [] → (∀ p ∈ l, IsSlash p) → (∀ p ∈ t.head?, ¬IsSlash p) → OneSlash t u →
      OneSlash (l ++ t) (.char '/' :: u)
  | other {p t u} : ¬IsSlash p → OneSlash t u → OneSlash (p :: t) (p :: u)

def forward (p : CodePoint) : CodePoint := if p = .char '\\' then .char '/' else p

variable {prefixes : PrefixMap} {tree : FileTree} {here : Address} {source source' mapped mapped' t u : Text}
  {requested requested' : Text} {p : CodePoint}

theorem plainSlashes_eq (t : Text) : plainSlashes t = Text.squeeze (.char '/') (t.map forward) := rfl

theorem forward_eq_slash_iff : forward p = .char '/' ↔ IsSlash p := by
  rw [forward, IsSlash]
  split
  · next h => simp [h]
  · next h => simp [h]

theorem forward_of_not_slash (h : ¬IsSlash p) : forward p = p := if_neg fun he => h (.inr he)

theorem map_forward_of_slashes {l : Text} (h : ∀ p ∈ l, IsSlash p) :
    l.map forward = List.replicate l.length (.char '/') := by
  rw [List.eq_replicate_iff]
  refine ⟨List.length_map _, ?_⟩
  intro q hq
  obtain ⟨p, hp, rfl⟩ := List.mem_map.1 hq
  exact forward_eq_slash_iff.2 (h p hp)

theorem OneSlash.eq_plainSlashes (h : OneSlash t u) : plainSlashes t = u := by
  induction h with
  | nil => rfl
  | @run l t u hl hslashes hhead _ ih =>
    have ht : (t.map forward).head? ≠ some (.char '/') := by
      rw [List.head?_map]
      intro he
      obtain ⟨p, hp, hslash⟩ := Option.map_eq_some_iff.1 he
      exact hhead p hp (forward_eq_slash_iff.1 hslash)
    rw [plainSlashes_eq, List.map_append, map_forward_of_slashes hslashes,
      Text.squeeze_replicate (List.length_pos_iff.2 hl) ht, ← plainSlashes_eq, ih]
  | @other p t u hp _ ih =>
    rw [plainSlashes_eq, List.map_cons, Text.squeeze_cons_of_ne (mt forward_eq_slash_iff.1 hp), forward_of_not_slash hp,
      ← plainSlashes_eq, ih]

theorem exists_oneSlash (t : Text) : ∃ u, OneSlash t u := by
  induction t with
  | nil => exact ⟨[], .nil⟩
  | cons p t ih =>
    obtain ⟨u, hu⟩ := ih
    by_cases hp : IsSlash p
    -- The slash joins the run in front of the rest, if there is one.
    · cases hu with
      | nil => exact ⟨_, .run (l := [p]) (by simp) (by simpa) (by simp) .nil⟩
      | @run l t u hl hslashes hhead ht =>
        exact ⟨_, .run (l := p :: l) (by simp) (List.forall_mem_cons.2 ⟨hp, hslashes⟩) hhead ht⟩
      | other hq ht => exact ⟨_, .run (l := [p]) (by simp) (by simpa) (by simpa) (.other hq ht)⟩
    · exact ⟨p :: u, .other hp hu⟩

theorem oneSlash_iff : OneSlash t u ↔ plainSlashes t = u := by
  constructor
  · exact OneSlash.eq_plainSlashes
  · rintro rfl
    obtain ⟨u, hu⟩ := exists_oneSlash t
    rwa [hu.eq_plainSlashes]

theorem OneSlash.exists_cons (h : OneSlash t u) (ht : t.head? = some p) (hp : IsSlash p) : ∃ v, u = .char '/' :: v := by
  cases h with
  | nil => contradiction
  | run => exact ⟨_, rfl⟩
  | other hq =>
    obtain rfl := Option.some.inj ht
    contradiction

theorem anchor_ofText_slash (t : Text) : (Path.ofText (.char '/' :: t)).anchor ≠ .relative := by
  simp only [Path.ofText, List.takeWhile_cons, decide_true, if_true, List.length_cons]
  generalize (t.takeWhile (· = .char '/')).length = n
  cases n with
  | zero => simp [Path.anchorOf]
  | succ n => cases n <;> simp [Path.anchorOf]

theorem target_of_slash (h : OneSlash mapped u) (hm : mapped.head? = some p) (hp : IsSlash p) (here : Address)
    (source : Text) : target here source mapped = Path.ofText u := by
  obtain ⟨v, rfl⟩ := h.exists_cons hm hp
  have hanchor := anchor_ofText_slash v
  rw [target, h.eq_plainSlashes, Path.join]
  split
  · next hr => exact absurd hr hanchor
  · rfl

theorem target_congr (h : OneSlash mapped u) (h' : OneSlash mapped' u) (here : Address) (source : Text) :
    target here source mapped = target here source mapped' := by
  rw [target, target, h.eq_plainSlashes, h'.eq_plainSlashes]

def outcome (r : Except (FileTree.Fault × Path) Include) : Except (FileTree.Fault × Path) (Path × Bool) :=
  r.map fun i => (i.path, i.found)

theorem outcome_resolve_congr
    (h : target tree.here source (prefixes.resolve requested) =
      target tree.here source' (prefixes.resolve requested')) :
    outcome (resolve prefixes tree requested source) = outcome (resolve prefixes tree requested' source') := by
  unfold resolve
  dsimp only
  rw [h]
  cases tree.isFile _ <;> rfl

/-- Inclusions whose paths are the same but for the runs of slashes and backslashes come to the same, also in
different files if the paths start with such a run. What counts of a path is what rounds over it leave, which end
for every path and leave one slash of each run. -/
theorem resolve_slashes (prefixes : PrefixMap) (tree : FileTree) :
    (∀ requested requested' source source' u, OneSlash (prefixes.resolve requested) u →
      OneSlash (prefixes.resolve requested') u →
      (source = source' ∨ ∃ p ∈ (prefixes.resolve requested).head?, IsSlash p) →
        outcome (resolve prefixes tree requested source) = outcome (resolve prefixes tree requested' source')) ∧
    ∀ mapped, ∃ n u, Text.Rounds (.char '/') (mapped.map forward) n u ∧ plainSlashes mapped = u ∧
      ∀ v, OneSlash mapped v ↔ v = u := by
  refine ⟨fun requested requested' source source' u h h' hsource => ?_, fun mapped => ?_⟩
  · apply outcome_resolve_congr
    rcases hsource with rfl | ⟨p, hm, hp⟩
    · exact target_congr h h' tree.here source
    · rw [target_of_slash h hm hp, ← target_of_slash h hm hp tree.here source']
      exact target_congr h h' tree.here source'
  · obtain ⟨n, u, hrounds⟩ := Text.exists_rounds (.char '/') (mapped.map forward)
    have hu : plainSlashes mapped = u := hrounds.eq_squeeze
    exact ⟨n, u, hrounds, hu, fun v => oneSlash_iff.trans (hu ▸ eq_comm)⟩

theorem resolve_slashes_mixed :
    let prefixes : PrefixMap := .ofList [("x".toText, "\\\\a\\".toText)]
    let requested := "x\\//b/\\\\".toText
    let requested' := "x/b/".toText
    let tree : FileTree := ⟨[([Utf8.encode "a".toList], .directory),
      ([Utf8.encode "a".toList, Utf8.encode "b".toList], .file [])], ["w".toText]⟩
    let file : Path := ⟨.root, ["a".toText, "b".toText]⟩
    OneSlash (prefixes.resolve requested) ("/a/b/".toText) ∧
      OneSlash (prefixes.resolve requested') ("/a/b/".toText) ∧
      (∃ p ∈ (prefixes.resolve requested).head?, IsSlash p) ∧
      outcome (resolve prefixes tree requested ("c/d".toText)) =
        outcome (resolve prefixes tree requested' ("e".toText)) ∧
      outcome (resolve prefixes tree requested' ("e".toText)) = .ok (file, true) := by
  intro prefixes requested requested' tree file
  have h : OneSlash (prefixes.resolve requested) ("/a/b/".toText) := oneSlash_iff.2 (by decide +kernel)
  have h' : OneSlash (prefixes.resolve requested') ("/a/b/".toText) :=
    oneSlash_iff.2 (by decide +kernel)
  have hstart : ∃ p ∈ (prefixes.resolve requested).head?, IsSlash p := ⟨.char '\\', by decide +kernel, .inr rfl⟩
  exact ⟨h, h', hstart, (resolve_slashes prefixes tree).1 requested requested' _ _ _ h h' (.inr hstart),
    by decide +kernel⟩

end Include

end ScriptMacros
