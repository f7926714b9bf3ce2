import Mathlib.Data.List.TakeWhile
import ScriptMacros.Proofs.Declaration

namespace ScriptMacros

namespace Bracket

/-- The place lies behind an opening bracket, and not behind the bracket that closes it. -/
def Grouped (t : Text) (k : Nat) : Prop :=
  ∃ before inside after, t = before ++ .char '(' :: (inside ++ .char ')' :: after) ∧ Balanced inside ∧
    before.length < k ∧ k ≤ before.length + 1 + inside.length

def Escaped (t : Text) (k : Nat) : Prop := ∃ j, k = j + 1 ∧ t[j]? = some (.char '\\')

def Protects (p : Protection) (t : Text) (k : Nat) : Prop :=
  (p.groups = true ∧ Grouped t k) ∨ (p.escapes = true ∧ Escaped t k)

def StopsAt (stop : CodePoint) (p : Protection) (t : Text) (k : Nat) : Prop :=
  (∀ j < k, t[j]? = some stop → Protects p t j) ∧ (k = t.length ∨ (t[k]? = some stop ∧ ¬Protects p t k))

variable {t u v w x y inside after : Text} {c stop : CodePoint} {p : Protection} {k : Nat} {escaped escaped' : Bool}

theorem not_grouped_zero (t : Text) : ¬Grouped t 0 := by
  rintro ⟨before, inside, after, -, -, hk, -⟩
  exact absurd hk (Nat.not_lt_zero _)

theorem grouped_cons (h : c = '(' → cut? t = none) : Grouped (c :: t) (k + 1) ↔ Grouped t k := by
  constructor
  · rintro ⟨before, inside, after, ht, hb, hlt, hle⟩
    cases before with
    | nil =>
      obtain ⟨rfl, rfl⟩ := List.cons.inj ht
      have hcut : cut? (inside ++ .char ')' :: after) = some (inside, after) := cut?_eq_some_iff.2 ⟨rfl, hb⟩
      rw [h rfl] at hcut
      contradiction
    | cons d before =>
      refine ⟨before, inside, after, (List.cons.inj ht).2, hb, Nat.lt_of_succ_lt_succ hlt, ?_⟩
      rw [List.length_cons] at hle
      omega
  · rintro ⟨before, inside, after, rfl, hb, hlt, hle⟩
    refine ⟨c :: before, inside, after, rfl, hb, Nat.succ_lt_succ hlt, ?_⟩
    rw [List.length_cons]
    omega

theorem grouped_inside (hb : Balanced inside) (after : Text) (hk : 0 < k) (hle : k ≤ inside.length + 1) :
    Grouped (.char '(' :: (inside ++ .char ')' :: after)) k :=
  ⟨[], inside, after, rfl, hb, hk, by rw [List.length_nil]; omega⟩

theorem length_lt_of_balanced (h : Balanced (x ++ .char '(' :: y)) (hu : Balanced u)
    (ht : u ++ .char ')' :: v = y ++ .char ')' :: after) : u.length < y.length := by
  apply Nat.lt_of_not_le
  intro hle
  -- Otherwise `y` would begin balanced text, but it closes one bracket more than it opens.
  have hprefix : y <+: u := by
    apply List.prefix_of_prefix_length_le (List.prefix_append y (.char ')' :: after)) ?_ hle
    rw [← ht]
    exact List.prefix_append u _
  have hy := hu.2 y hprefix
  have hx := h.2 x (List.prefix_append x _)
  have hd := h.1
  rw [depth_append, depth, weight_open] at hd
  omega

theorem grouped_behind (hb : Balanced inside) :
    Grouped (.char '(' :: (inside ++ .char ')' :: after)) (inside.length + 2 + k) ↔ Grouped after k := by
  constructor
  · rintro ⟨before, inside', after', ht, hb', hlt, hle⟩
    cases before with
    | nil =>
      have hcut : cut? (inside ++ .char ')' :: after) = some (inside, after) := cut?_eq_some_iff.2 ⟨rfl, hb⟩
      rw [(List.cons.inj ht).2, cut?_eq_some_iff.2 ⟨rfl, hb'⟩] at hcut
      obtain ⟨rfl, -⟩ := Prod.mk.inj (Option.some.inj hcut)
      rw [List.length_nil] at hle
      omega
    | cons d before =>
      rw [List.length_cons] at hlt hle
      rcases List.append_eq_append_iff.1 (List.cons.inj ht).2 with ⟨z, rfl, hz⟩ | ⟨z, rfl, hz⟩
      · cases z with
        | nil => exact absurd (List.cons.inj hz).1 (by decide)
        | cons e z =>
          rw [List.length_append, List.length_cons] at hlt hle
          exact ⟨z, inside', after', (List.cons.inj hz).2, hb', by omega, by omega⟩
      · cases z with
        | nil => exact absurd (List.cons.inj hz).1 (by decide)
        | cons e z =>
          obtain ⟨rfl, hrest⟩ := List.cons.inj hz
          have hlength := length_lt_of_balanced hb hb' hrest
          rw [List.length_append, List.length_cons] at hle
          omega
  · rintro ⟨before, inside', after', rfl, hb', hlt, hle⟩
    refine ⟨.char '(' :: (inside ++ .char ')' :: before), inside', after', by simp, hb', ?_, ?_⟩
    · simp only [List.length_cons, List.length_append]
      omega
    · simp only [List.length_cons, List.length_append]
      omega

theorem escaped_cons : Escaped (c :: t) (k + 1) ↔ (c = '\\' ∧ k = 0) ∨ Escaped t k := by
  cases k <;> simp [Escaped]

theorem escaped_append (hw : w.getLast? ≠ some (.char '\\')) : Escaped (w ++ t) (w.length + k) ↔ Escaped t k := by
  cases k with
  | zero =>
    constructor
    · rintro ⟨j, hj, hget⟩
      rw [Nat.add_zero] at hj
      rw [List.getElem?_append_left (by omega)] at hget
      rw [List.getLast?_eq_getElem?, hj, Nat.add_sub_cancel] at hw
      contradiction
    · rintro ⟨j, hj, -⟩
      contradiction
  | succ k =>
    have hget : (w ++ t)[w.length + k]? = t[k]? := by
      rw [List.getElem?_append_right (Nat.le_add_right _ _), Nat.add_sub_cancel_left]
    constructor
    · rintro ⟨j, hj, hj'⟩
      obtain rfl : w.length + k = j := by omega
      exact ⟨k, rfl, hget ▸ hj'⟩
    · rintro ⟨j, hj, hj'⟩
      obtain rfl : k = j := by omega
      exact ⟨w.length + k, rfl, hget.trans hj'⟩

def ProtectsFrom (p : Protection) (escaped : Bool) (t : Text) (k : Nat) : Prop :=
  Protects p t k ∨ (escaped = true ∧ k = 0)

theorem protectsFrom_cons (h : p.groups = true → c = '(' → cut? t = none) :
    ProtectsFrom p escaped (c :: t) (k + 1) ↔ ProtectsFrom p (p.escapes && c == '\\') t k := by
  have hgroups : (p.groups = true ∧ Grouped (c :: t) (k + 1)) ↔ (p.groups = true ∧ Grouped t k) :=
    and_congr_right fun hp => grouped_cons (h hp)
  rw [ProtectsFrom, ProtectsFrom, Protects, Protects, hgroups, escaped_cons, Bool.and_eq_true, beq_iff_eq]
  constructor
  · rintro ((hg | ⟨he, ⟨hc, hk⟩ | hk⟩) | ⟨-, hk⟩)
    · exact Or.inl (Or.inl hg)
    · exact Or.inr ⟨⟨he, hc⟩, hk⟩
    · exact Or.inl (Or.inr ⟨he, hk⟩)
    · exact absurd hk (Nat.succ_ne_zero k)
  · rintro ((hg | ⟨he, hk⟩) | ⟨⟨he, hc⟩, hk⟩)
    · exact Or.inl (Or.inl hg)
    · exact Or.inl (Or.inr ⟨he, Or.inr hk⟩)
    · exact Or.inl (Or.inr ⟨he, Or.inl ⟨hc, hk⟩⟩)

def group (inside : Text) : Text := .char '(' :: (inside ++ [.char ')'])

theorem length_group (inside : Text) : (group inside).length = inside.length + 2 := by simp [group]

theorem group_append (inside after : Text) : group inside ++ after = .char '(' :: (inside ++ .char ')' :: after) := by
  simp [group]

theorem protectsFrom_behind (hb : Balanced inside) :
    ProtectsFrom p escaped (group inside ++ after) ((group inside).length + k) ↔ ProtectsFrom p false after k := by
  have hlast : (group inside).getLast? ≠ some (.char '\\') := by
    change (CodePoint.char '(' :: inside ++ [CodePoint.char ')']).getLast? ≠ some (.char '\\')
    rw [List.getLast?_concat]
    decide
  rw [ProtectsFrom, ProtectsFrom, Protects, Protects, escaped_append hlast, length_group, group_append,
    grouped_behind hb]
  simp

def StopsFrom (stop : CodePoint) (p : Protection) (escaped : Bool) (t : Text) (k : Nat) : Prop :=
  (∀ j < k, t[j]? = some stop → ProtectsFrom p escaped t j) ∧
    (k = t.length ∨ (t[k]? = some stop ∧ ¬ProtectsFrom p escaped t k))

theorem StopsFrom.append (hw : ∀ j < w.length, (w ++ t)[j]? = some stop → ProtectsFrom p escaped (w ++ t) j)
    (ht : ∀ k, ProtectsFrom p escaped (w ++ t) (w.length + k) ↔ ProtectsFrom p escaped' t k)
    (h : StopsFrom stop p escaped' t k) : StopsFrom stop p escaped (w ++ t) (w.length + k) := by
  obtain ⟨hbefore, hend⟩ := h
  refine ⟨?_, ?_⟩
  · intro j hj hstop
    rcases Nat.lt_or_ge j w.length with hlt | hge
    · exact hw j hlt hstop
    · obtain ⟨i, rfl⟩ := Nat.exists_eq_add_of_le hge
      rw [List.getElem?_append_right hge, Nat.add_sub_cancel_left] at hstop
      exact (ht i).2 (hbefore i (by omega) hstop)
  · rw [ht, List.length_append, List.getElem?_append_right (Nat.le_add_right _ _), Nat.add_sub_cancel_left]
    exact hend.imp_left (congrArg _)

theorem readFrom_step (hstop : ¬(c = stop ∧ escaped = false)) (h : p.groups = true → c = '(' → cut? t = none) :
    readFrom stop p 0 escaped (c :: t) = c :: readFrom stop p 0 (p.escapes && c == '\\') t := by
  rw [readFrom, if_neg hstop]
  dsimp only
  split
  · next hopen =>
    rw [closing?, h hopen.1 hopen.2]
    rfl
  · rfl

theorem protectsFrom_group (hg : p.groups = true) (hb : Balanced inside) (hstop : ¬('(' = stop ∧ escaped = false))
    (after : Text) : ∀ j < (group inside).length, (group inside ++ after)[j]? = some stop →
      ProtectsFrom p escaped (group inside ++ after) j := by
  intro j hj hget
  rw [length_group] at hj
  cases j with
  | zero =>
    obtain rfl : '(' = stop := Option.some.inj hget
    have he : escaped = true := Bool.of_not_eq_false fun he => hstop ⟨rfl, he⟩
    exact Or.inr ⟨he, rfl⟩
  | succ j =>
    rw [group_append]
    exact Or.inl (Or.inl ⟨hg, grouped_inside hb after (Nat.succ_pos j) (by omega)⟩)

theorem stopsFrom_readFrom (stop : CodePoint) (p : Protection) (escaped : Bool) (t : Text) :
    StopsFrom stop p escaped t (readFrom stop p 0 escaped t).length := by
  -- The reader goes from a group to what is behind it, so the induction is on the length of the text.
  induction hn : t.length using Nat.strong_induction_on generalizing t escaped with
  | h n ih =>
    subst hn
    cases t with
    | nil => exact ⟨fun j hj => absurd hj (Nat.not_lt_zero j), Or.inl rfl⟩
    | cons c t =>
      by_cases hstop : c = stop ∧ escaped = false
      · obtain ⟨rfl, rfl⟩ := hstop
        rw [readFrom, if_pos ⟨rfl, rfl⟩]
        refine ⟨fun j hj => absurd hj (Nat.not_lt_zero j), Or.inr ⟨rfl, ?_⟩⟩
        rintro ((⟨-, hg⟩ | ⟨-, j, hj, -⟩) | ⟨he, -⟩)
        · exact not_grouped_zero _ hg
        · contradiction
        · contradiction
      by_cases hopen : p.groups = true → c = '(' → cut? t = none
      · have hrest := ih t.length (Nat.lt_succ_self _) (p.escapes && c == '\\') t rfl
        rw [readFrom_step hstop hopen, List.length_cons, Nat.add_comm]
        refine StopsFrom.append (w := [c]) ?_ ?_ hrest
        · intro j hj hget
          obtain rfl : j = 0 := by simpa using hj
          obtain rfl : c = stop := Option.some.inj hget
          have he : escaped = true := Bool.of_not_eq_false fun he => hstop ⟨rfl, he⟩
          exact Or.inr ⟨he, rfl⟩
        · intro k
          rw [List.length_singleton, Nat.add_comm]
          exact protectsFrom_cons hopen
      · push Not at hopen
        obtain ⟨hg, rfl, hcut⟩ := hopen
        obtain ⟨⟨inside, after⟩, hcut⟩ := Option.ne_none_iff_exists'.1 hcut
        obtain ⟨rfl, hb⟩ := cut?_eq_some_iff.1 hcut
        have hrest := ih after.length (by simp only [List.length_cons, List.length_append]; omega) false after rfl
        rw [readFrom_group hb hstop hg, ← group_append, ← group_append, List.length_append]
        exact StopsFrom.append (protectsFrom_group hg hb hstop after) (fun k => protectsFrom_behind hb) hrest

theorem stopsAt_readUntil (stop : CodePoint) (p : Protection) (t : Text) :
    StopsAt stop p t (readUntil stop p t).length := by
  have h := stopsFrom_readFrom stop p false t
  have hfalse : ∀ k, ProtectsFrom p false t k ↔ Protects p t k := fun k => by simp [ProtectsFrom]
  simp only [StopsFrom, hfalse] at h
  exact h

theorem StopsAt.unique {j : Nat} (hj : StopsAt stop p t j) (hk : StopsAt stop p t k) : j = k := by
  have hle : ∀ {j k}, StopsAt stop p t j → StopsAt stop p t k → ¬j < k := by
    intro j k hj hk hlt
    have hlength : k ≤ t.length := by
      rcases hk.2 with rfl | ⟨hget, -⟩
      · exact Nat.le_refl _
      · exact Nat.le_of_lt (List.getElem?_eq_some_iff.1 hget).1
    rcases hj.2 with rfl | ⟨hget, hfree⟩
    · omega
    · exact hfree (hk.1 j hlt hget)
  have := hle hj hk
  have := hle hk hj
  omega

theorem StopsAt.readUntil_eq (h : StopsAt stop p t k) : readUntil stop p t = t.take k := by
  rw [← (stopsAt_readUntil stop p t).unique h]
  have hprefix := readUntil_prefix stop p t
  exact List.prefix_iff_eq_take.1 hprefix

end Bracket

namespace Declaration

open ScriptMacros.Bracket

/-- What a name and the text behind it declare. Parameters stand in the group behind the name; if that is never closed,
they are what comes before the first space outside groups, and the body is what is left. -/
inductive Declares (name : Text) : Text → Declaration → Prop
  | plain {rest : Text} : rest.head? ≠ some (.char '(') → Declares name rest ⟨name, none, rest.trim⟩
  | closed {inside after : Text} : Balanced inside →
      Declares name (.char '(' :: (inside ++ .char ')' :: after)) ⟨name, some (parameterNames inside), after.trim⟩
  | unclosed {list rest : Text} : (∀ inside after, list ++ rest = inside ++ .char ')' :: after → ¬Balanced inside) →
      StopsAt ' ' ⟨false, true⟩ (list ++ rest) list.length →
      Declares name (.char '(' :: (list ++ rest)) ⟨name, some (parameterNames list), rest.trim⟩

variable {value name head inner rest : Text} {d : Declaration}

theorem exists_declares (name rest : Text) : ∃ d, Declares name rest d := by
  by_cases hhead : rest.head? = some (.char '(')
  · obtain ⟨u, rfl⟩ := List.head?_eq_some_iff.1 hhead
    cases hcut : cut? u with
    | some q =>
      obtain ⟨rfl, hb⟩ := cut?_eq_some_iff.1 hcut
      exact ⟨_, .closed hb⟩
    | none =>
      have hstops := stopsAt_readUntil ' ' ⟨false, true⟩ u
      obtain ⟨r, hr⟩ := readUntil_prefix ' ' ⟨false, true⟩ u
      generalize readUntil ' ' ⟨false, true⟩ u = list at hstops hr
      subst hr
      refine ⟨_, .unclosed ?_ hstops⟩
      intro inside after hu hb
      rw [cut?_eq_some_iff.2 ⟨hu, hb⟩] at hcut
      contradiction
  · exact ⟨_, .plain hhead⟩

theorem parse_plain (hv : value.dropWhile (· = .char ' ') = head ++ rest)
    (hread : readUntil ' ' ⟨false, true⟩ (head ++ rest) = head) (hcut : head.cutAt? (.char '(') = none) :
    parse value = if head = [] then .error .noMacroName else .ok ⟨head, none, rest.trim⟩ := by
  rw [parse]
  simp only [hv, hread, List.drop_left, hcut]

theorem parse_unclosed (hv : value.dropWhile (· = .char ' ') = head ++ rest)
    (hread : readUntil ' ' ⟨false, true⟩ (head ++ rest) = head) (hcut : head.cutAt? (.char '(') = some (name, inner))
    (hopen : cut? inner = none) :
    parse value = if name = [] then .error .noMacroName else .ok ⟨name, some (parameterNames inner), rest.trim⟩ := by
  rw [parse]
  simp only [hv, hread, List.drop_left, hcut, hopen]

theorem parse_closed {inside glued : Text} (hv : value.dropWhile (· = .char ' ') = head ++ rest)
    (hread : readUntil ' ' ⟨false, true⟩ (head ++ rest) = head) (hcut : head.cutAt? (.char '(') = some (name, inner))
    (hclosed : cut? inner = some (inside, glued)) :
    parse value = if name = [] then .error .noMacroName
      else .ok ⟨name, some (parameterNames inside), (glued ++ rest : Text).trim⟩ := by
  rw [parse]
  simp only [hv, hread, List.drop_left, hcut, hclosed]

theorem Declares.parse_eq (h : Declares name rest d) (hv : value.dropWhile (· = .char ' ') = name ++ rest)
    (hspace : .char ' ' ∉ name) (hopen : .char '(' ∉ name) (hrest : ∀ c, rest.head? = some c → c = ' ' ∨ c = '(') :
    parse value = if name = [] then .error .noMacroName else .ok d := by
  have hread : ∀ t, readUntil ' ' ⟨false, true⟩ (name ++ t) = name ++ readUntil ' ' ⟨false, true⟩ t :=
    fun t => readFrom_append hspace (fun _ => hopen) rfl
  cases h with
  | @plain rest hhead =>
    have hend : readUntil ' ' ⟨false, true⟩ rest = [] := by
      cases rest with
      | nil => rfl
      | cons c rest =>
        obtain rfl : c = ' ' := (hrest c rfl).resolve_right fun hc => hhead (by rw [hc]; rfl)
        rfl
    exact parse_plain hv (by rw [hread, hend, List.append_nil]) (Text.cutAt?_eq_none hopen)
  | @closed inside after hb =>
    have hgroup : readUntil ' ' ⟨false, true⟩ (.char '(' :: (inside ++ .char ')' :: after)) =
        .char '(' :: (inside ++ .char ')' :: readUntil ' ' ⟨false, true⟩ after) := readFrom_group hb (by decide) rfl
    obtain ⟨r, hr⟩ := readUntil_prefix ' ' ⟨false, true⟩ after
    have hsplit : name ++ .char '(' :: (inside ++ .char ')' :: after) =
        name ++ .char '(' :: (inside ++ .char ')' :: readUntil ' ' ⟨false, true⟩ after) ++ r := by simp [hr]
    rw [hsplit] at hv
    rw [parse_closed hv (by rw [← hsplit, hread, hgroup]) (Text.cutAt?_append hopen) (cut?_eq_some_iff.2 ⟨rfl, hb⟩), hr]
  | @unclosed list rest hb hstops =>
    have hnone : ∀ t r, list ++ rest = t ++ r → cut? t = none := by
      intro t r ht
      rw [Option.eq_none_iff_forall_ne_some]
      rintro ⟨inside, after⟩ hcut
      obtain ⟨rfl, hinside⟩ := cut?_eq_some_iff.1 hcut
      exact hb inside (after ++ r) (by rw [ht]; simp) hinside
    have hlist : readUntil ' ' ⟨false, true⟩ (.char '(' :: (list ++ rest)) = .char '(' :: list := by
      have hstep : readUntil ' ' ⟨false, true⟩ (.char '(' :: (list ++ rest)) =
          .char '(' :: readUntil ' ' ⟨false, true⟩ (list ++ rest) :=
        readFrom_step (by decide) fun _ _ => hnone (list ++ rest) [] (by simp)
      rw [hstep, hstops.readUntil_eq, List.take_left]
    have hsplit : name ++ .char '(' :: (list ++ rest) = name ++ .char '(' :: list ++ rest := by simp
    rw [hsplit] at hv
    exact parse_unclosed hv (by rw [← hsplit, hread, hlist]) (Text.cutAt?_append hopen) (hnone list rest rfl)

/-- A value is read after its leading spaces. The name ends at the first space or opening bracket; without a name there
is no declaration, and otherwise there is exactly the one that the rest of the value says. -/
theorem parse_exact (value : Text) :
    let v := value.dropWhile (· = .char ' ')
    let name := v.takeWhile fun c : CodePoint => c ≠ ' ' ∧ c ≠ '('
    let rest := v.dropWhile fun c : CodePoint => c ≠ ' ' ∧ c ≠ '('
    (∀ f, parse value = .error f ↔ name = [] ∧ f = .noMacroName) ∧
      ∀ d, parse value = .ok d ↔ name ≠ [] ∧ Declares name rest d := by
  intro v name rest
  have hname : ∀ c ∈ name, c ≠ ' ' ∧ c ≠ '(' := by
    intro c hc
    simpa using List.mem_takeWhile_imp (show c ∈ v.takeWhile fun c : CodePoint => decide (c ≠ ' ' ∧ c ≠ '(') from hc)
  have hrest : ∀ c, rest.head? = some c → c = ' ' ∨ c = '(' := by
    intro c hc
    have hnot := List.head?_dropWhile_not (fun c : CodePoint => decide (c ≠ ' ' ∧ c ≠ '(')) v
    rw [show (v.dropWhile fun c : CodePoint => decide (c ≠ ' ' ∧ c ≠ '(')).head? = some c from hc] at hnot
    by_contra hne
    rw [not_or] at hne
    simp [hne.1, hne.2] at hnot
  have hparse : ∀ {d}, Declares name rest d → parse value = if name = [] then .error .noMacroName else .ok d :=
    fun h => h.parse_eq List.takeWhile_append_dropWhile.symm (fun hc => (hname _ hc).1 rfl)
      (fun hc => (hname _ hc).2 rfl) hrest
  obtain ⟨d, hd⟩ := exists_declares name rest
  by_cases hempty : name = []
  · simp [hparse hd, hempty, eq_comm]
  · refine ⟨fun f => by simp [hparse hd, hempty], fun e => ?_⟩
    constructor
    · intro he
      rw [hparse hd, if_neg hempty] at he
      exact ⟨hempty, Except.ok.inj he ▸ hd⟩
    · rintro ⟨-, he⟩
      rw [hparse he, if_neg hempty]

example : parse " F(a, (b)c (d)".toText = .ok ⟨['F'], some ["a".toText], "(b)c (d)".toText⟩ := by decide +kernel

end Declaration

end ScriptMacros
