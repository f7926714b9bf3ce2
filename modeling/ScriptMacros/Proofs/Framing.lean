import ScriptMacros.Proofs.Bracket
import ScriptMacros.Proofs.Lockstep
import ScriptMacros.Proofs.Rescanning

namespace ScriptMacros

theorem Text.after?_append {p t r : Text} (h : ∀ c ∈ r.head?, c ∉ p) :
    after? p (t ++ r) = (after? p t).map (· ++ r) := by
  induction p generalizing t with
  | nil => rfl
  | cons a p ih =>
    have hp : ∀ c ∈ r.head?, c ∉ p := fun c hc hm => h c hc (List.mem_cons_of_mem a hm)
    cases t with
    | nil =>
      cases r with
      | nil => rfl
      | cons c r =>
        have hac : a ≠ c := fun he => h c rfl (he ▸ List.mem_cons_self)
        exact if_neg hac
    | cons d t =>
      by_cases had : a = d
      · simp only [List.cons_append, after?, if_pos had, ih hp]
      · simp only [List.cons_append, after?, if_neg had, Option.map_none]

theorem Text.after?_concat (p : Text) (q t : Text) : after? (p ++ q) t = (after? p t).bind (after? q) := by
  induction p generalizing t with
  | nil => rfl
  | cons a p ih =>
    cases t with
    | nil => rfl
    | cons c t =>
      by_cases hac : a = c
      · simp only [List.cons_append, after?, if_pos hac, ih]
      · simp only [List.cons_append, after?, if_neg hac, Option.bind_none]

theorem Bracket.cut?_append {t r : Text} (h : .char ')' ∉ r) :
    cut? (t ++ r) = (cut? t).map fun (inside, after) => (inside, after ++ r) := by
  apply Option.ext
  rintro ⟨u, v⟩
  rw [cut?_eq_some_iff, Option.map_eq_some_iff]
  constructor
  · rintro ⟨ht, hu⟩
    rcases List.append_eq_append_iff.1 ht with ⟨z, -, hr⟩ | ⟨z, hz, hr⟩
    · exact absurd (hr ▸ by simp) h
    · cases z with
      | nil =>
        rw [List.nil_append] at hr
        exact absurd (hr ▸ List.mem_cons_self) h
      | cons c z =>
        obtain ⟨rfl, rfl⟩ := List.cons.inj hr
        exact ⟨(u, z), cut?_eq_some_iff.2 ⟨hz, hu⟩, rfl⟩
  · rintro ⟨⟨u', v'⟩, hcut, he⟩
    obtain ⟨rfl, rfl⟩ := Prod.mk.inj he
    obtain ⟨rfl, hu⟩ := cut?_eq_some_iff.1 hcut
    exact ⟨by simp, hu⟩

namespace Invocation

def extend (r : Text) (i : Invocation) : Invocation := { i with after := i.after ++ r }

theorem shift_shift (n m : Nat) (i : Invocation) : (i.shift n).shift m = i.shift (n + m) := by
  simp [shift, Nat.add_assoc]

theorem result_shift (p line : Text) (i : Invocation) : (i.shift p.length).result (p ++ line) = p ++ i.result line := by
  simp [result, shift, Text.splice_eq, Nat.add_comm i.start, List.take_length_add_append]

theorem result_extend {i : Invocation} {line : Text} (h : i.Cuts line) (r : Text) :
    (i.extend r).result (line ++ r) = i.result line ++ r := by
  obtain ⟨before, hb, rfl⟩ := h
  simp [result, extend, Text.splice_eq, ← hb]

variable {startsAt? : Text → Option Invocation} {p s r : Text}

theorem first?_append_of_none (h : ∀ c ∈ p, ∀ t, startsAt? (c :: t) = none) (t : Text) :
    first? startsAt? (p ++ t) = (first? startsAt? t).map (shift p.length) := by
  induction p with
  | nil => exact Option.map_id'.symm
  | cons c p ih =>
    obtain ⟨hc, hp⟩ := List.forall_mem_cons.1 h
    rw [List.cons_append, first?_cons, hc, Option.none_or, ih hp, Option.map_map]
    rfl

theorem first?_append (hnil : startsAt? [] = none) (h : ∀ v, startsAt? (v ++ r) = (startsAt? v).map (extend r))
    (s : Text) : first? startsAt? (s ++ r) =
      ((first? startsAt? s).map (extend r)).or ((first? startsAt? r).map (shift s.length)) := by
  induction s with
  | nil =>
    rw [first?_nil, hnil, Option.map_none, Option.none_or]
    exact Option.map_id'.symm
  | cons c s ih =>
    have hc := h (c :: s)
    rw [List.cons_append] at hc ⊢
    rw [first?_cons, first?_cons, hc, ih]
    cases startsAt? (c :: s) with
    | some i => rfl
    | none =>
      rw [Option.map_none, Option.none_or, Option.none_or, Option.map_or, Option.map_map, Option.map_map,
        Option.map_map]
      rfl

end Invocation

namespace Macro

variable {m : Macro} {r : Text} {c : CodePoint}

theorem invocationAt?_nil (h : m.name ≠ []) : m.invocationAt? [] = none := by
  apply invocationAt?_eq_none
  simpa using h

theorem invocationAt?_foreign (h : m.name ≠ []) (hc : c ∉ m.name) (t : Text) : m.invocationAt? (c :: t) = none := by
  apply invocationAt?_eq_none
  rw [List.isPrefixOf_iff_prefix]
  intro hp
  obtain ⟨a, name, hname⟩ := List.exists_cons_of_ne_nil h
  rw [hname, List.cons_prefix_cons] at hp
  exact hc (by rw [hname, hp.1]; exact List.mem_cons_self)

theorem invocationAt?_function {parameters : List Text} (hp : m.parameters = some parameters) (t : Text) :
    m.invocationAt? t = (Text.after? (m.name ++ [.char '(']) t).bind fun rest =>
      (Bracket.cut? rest).map fun (inside, after) => ⟨0, m.name ++ .char '(' :: (inside ++ [.char ')']), after,
        substitute m.body parameters (Bracket.arguments inside)⟩ := by
  rw [invocationAt?, hp, Text.after?_concat]
  cases Text.after? m.name t with
  | none => rfl
  | some rest =>
    cases rest with
    | nil => rfl
    | cons c rest =>
      by_cases hc : '(' = c
      · subst hc
        rfl
      · rw [Option.bind_some, Text.after?, if_neg hc]
        dsimp only [Option.bind_none]
        split
        · contradiction
        · contradiction
        · next he _ => exact absurd (List.cons.inj (Option.some.inj he)).1.symm hc
        · rfl

theorem invocationAt?_append (hr : ∀ c ∈ r.head?, c ∉ m.name)
    (hgroup : m.parameters = none ∨ .char '(' ∉ r ∧ .char ')' ∉ r)
    (v : Text) : m.invocationAt? (v ++ r) = (m.invocationAt? v).map (Invocation.extend r) := by
  cases hp : m.parameters with
  | none =>
    rw [invocationAt?_object hp, invocationAt?_object hp, Text.after?_append hr, Option.map_map, Option.map_map]
    rfl
  | some parameters =>
    obtain ⟨hopen, hclose⟩ := hgroup.resolve_left (by simp [hp])
    have hcall : ∀ c ∈ r.head?, c ∉ m.name ++ [.char '('] := by
      intro c hc
      have hne : c ≠ '(' := fun he => hopen (he ▸ List.mem_of_mem_head? hc)
      simpa [hne] using hr c hc
    rw [invocationAt?_function hp, invocationAt?_function hp, Text.after?_append hcall]
    cases Text.after? (m.name ++ [.char '(']) v with
    | none => rfl
    | some rest =>
      rw [Option.map_some, Option.bind_some, Option.bind_some, Bracket.cut?_append hclose, Option.map_map,
        Option.map_map]
      rfl

theorem invocation?_framed {p q : Text} (h : m.name ≠ []) (hp : ∀ c ∈ m.name, c ∉ p) (hq : ∀ c ∈ m.name, c ∉ q)
    (hopen : .char '(' ∉ q) (hclose : .char ')' ∉ q) (s : Text) :
    m.invocation? (p ++ (s ++ q)) = (m.invocation? s).map fun i => (i.extend q).shift p.length := by
  have hbefore : ∀ c ∈ p, ∀ t, m.invocationAt? (c :: t) = none :=
    fun c hc => invocationAt?_foreign h fun hm => hp c hm hc
  have hbehind : ∀ c ∈ q, ∀ t, m.invocationAt? (c :: t) = none :=
    fun c hc => invocationAt?_foreign h fun hm => hq c hm hc
  have hnil := invocationAt?_nil h
  -- No name begins behind the line, so only what is invoked in the line is left.
  have hnone : Invocation.first? m.invocationAt? q = none := by
    have hq := Invocation.first?_append_of_none hbehind []
    rwa [List.append_nil, Invocation.first?_nil, hnil] at hq
  have hhead : ∀ c ∈ q.head?, c ∉ m.name := fun c hc hm => hq c hm (List.mem_of_mem_head? hc)
  rw [invocation?_eq, invocation?_eq, Invocation.first?_append_of_none hbefore,
    Invocation.first?_append hnil (invocationAt?_append hhead (Or.inr ⟨hopen, hclose⟩)), hnone, Option.map_none,
    Option.or_none, Option.map_map]
  rfl

end Macro

namespace Expansion

/-- Text that may stand before and behind a line: names have none of its characters, and behind the line there is no
bracket. -/
structure Frames (p q : Text) (ms : List Macro) : Prop where
  name_ne_nil : ∀ m ∈ ms, m.name ≠ []
  before : ∀ m ∈ ms, ∀ c ∈ m.name, c ∉ p
  behind : ∀ m ∈ ms, ∀ c ∈ m.name, c ∉ q
  unopened : .char '(' ∉ q
  unclosed : .char ')' ∉ q

variable {ms : List Macro} {p q : Text}

theorem Frames.firstInvocation? (h : Frames p q ms) (s : Text) : Expansion.firstInvocation? ms (p ++ (s ++ q)) =
    (Expansion.firstInvocation? ms s).map fun (m, i) => (m, (i.extend q).shift p.length) := by
  have hmap := firstInvocation?_map (g := id) fun m hm => Macro.invocation?_framed (h.name_ne_nil m hm)
    (h.before m hm) (h.behind m hm) h.unopened h.unclosed s
  rwa [List.map_id] at hmap

theorem Frames.mirrors (h : Frames p q ms) : Mirrors (fun _ => True) (fun s => p ++ (s ++ q)) ms ms := by
  refine Mirrors.of_map (g := id) (e := fun i => (i.extend q).shift p.length) (fun _ => h.firstInvocation? _)
    (fun _ => rfl) (fun _ => Iff.rfl) ?_
  intro s m i _ hf
  have hcuts := Macro.cuts_of_invocation? (firstInvocation?_eq_some hf).2
  rw [Invocation.result_shift, Invocation.result_extend hcuts]
  exact ⟨rfl, trivial⟩

end Expansion

/-- Text around a line that has no character of a name, and no bracket behind the line, stays as it is and changes
nothing: the line is expanded, or given up at the same replacement, as it would be alone. -/
theorem MacroTable.expand_framed {t : MacroTable} (hnames : ∀ m ∈ t.macros, m.name ≠ []) {p q : Text}
    (hp : ∀ m ∈ t.macros, ∀ c ∈ m.name, c ∉ p) (hq : ∀ m ∈ t.macros, ∀ c ∈ m.name, c ∉ q) (hopen : .char '(' ∉ q)
    (hclose : .char ')' ∉ q) (limit : Limit) (s : Text) :
    t.expand limit (p ++ s ++ q) = (t.expand limit s).map fun r => p ++ r ++ q := by
  have hframes : Expansion.Frames p q t.byLength :=
    ⟨fun m hm => hnames m (mem_longestFirst.1 hm), fun m hm => hp m (mem_longestFirst.1 hm),
      fun m hm => hq m (mem_longestFirst.1 hm), hopen, hclose⟩
  simp only [List.append_assoc]
  exact hframes.mirrors.expand trivial limit

theorem MacroTable.expand_framed_open :
    let t := ofList [.plain "ab" (some ["x".toText]) "[x](", .plain "F" none "a"]
    let p := "((-".toText
    let q := "- 1".toText
    (∀ m ∈ t.macros, m.name ≠ []) ∧ (∀ m ∈ t.macros, ∀ c ∈ m.name, c ∉ p) ∧
      (∀ m ∈ t.macros, ∀ c ∈ m.name, c ∉ q) ∧ .char '(' ∉ q ∧ .char ')' ∉ q ∧
      t.expand (.count 2) "Fb(1)ab(2".toText = .ok "[1](ab(2".toText ∧
      t.expand (.count 2) (p ++ "Fb(1)ab(2".toText ++ q) = .ok "((-[1](ab(2- 1".toText ∧
      t.expand (.count 1) (p ++ "Fb(1)ab(2".toText ++ q) = .error (.recursion "ab".toText 2) := by
  intro t p q
  have hnames : ∀ m ∈ t.macros, m.name ≠ [] := by decide
  have hbefore : ∀ m ∈ t.macros, m.name.all fun c => c ∉ p := by decide
  have hbehind : ∀ m ∈ t.macros, m.name.all fun c => c ∉ q := by decide
  have hp : ∀ m ∈ t.macros, ∀ c ∈ m.name, c ∉ p :=
    fun m hm c hc => of_decide_eq_true (List.all_eq_true.1 (hbefore m hm) c hc)
  have hq : ∀ m ∈ t.macros, ∀ c ∈ m.name, c ∉ q :=
    fun m hm c hc => of_decide_eq_true (List.all_eq_true.1 (hbehind m hm) c hc)
  have hopen : .char '(' ∉ q := by decide
  have hclose : .char ')' ∉ q := by decide
  have halone : t.expand (.count 2) "Fb(1)ab(2".toText = .ok "[1](ab(2".toText := by decide +kernel
  have hgiven : t.expand (.count 1) "Fb(1)ab(2".toText = .error (.recursion "ab".toText 2) := by decide +kernel
  refine ⟨hnames, hp, hq, hopen, hclose, halone, ?_, ?_⟩
  · rw [expand_framed hnames hp hq hopen hclose, halone]
    rfl
  · rw [expand_framed hnames hp hq hopen hclose, hgiven]
    rfl

end ScriptMacros
