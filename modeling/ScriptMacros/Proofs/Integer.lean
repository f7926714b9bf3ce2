import ScriptMacros.Text.Integer
import Mathlib.Data.List.Induction
import Mathlib.Data.List.TakeWhile
import Mathlib.Data.Nat.Digits.Defs

namespace ScriptMacros

namespace Character

variable {c : CodePoint} {d : Nat}

theorem digit?_of_lt (h : c.toNat < 127) :
    digit? c = if 48 ≤ c.toNat ∧ c.toNat ≤ 57 then some (c.toNat - 48) else none := by
  have hfirst : digitRanges = (0x30, 0x39) :: digitRanges.tail := rfl
  have hothers : ∀ r ∈ digitRanges.tail, 127 ≤ r.1 := by decide
  rw [digit?, hfirst]
  by_cases hascii : 48 ≤ c.toNat ∧ c.toNat ≤ 57
  · rw [List.find?_cons_of_pos (by simpa using hascii), if_pos hascii, Option.map_some]
    exact congrArg some (Nat.mod_eq_of_lt (by omega))
  · rw [List.find?_cons_of_neg (by simpa using hascii), List.find?_eq_none.2 ?_, if_neg hascii, Option.map_none]
    intro r hr
    have := hothers r hr
    simp only [Bool.and_eq_true, decide_eq_true_eq]
    omega

theorem lt_of_digit? (h : digit? c = some d) : d < 10 := by
  obtain ⟨r, -, hr⟩ := Option.map_eq_some_iff.1 h
  exact hr ▸ Nat.mod_lt _ (by decide)

theorem not_isBlank_of_digit? (h : digit? c = some d) : Text.isBlank c = false := by
  have hapart : ∀ r ∈ digitRanges, (0x20 < r.1 ∧ r.2 < 0x85) ∨ (0xa0 < r.1 ∧ r.2 < 0x1680) ∨
      (0x1680 < r.1 ∧ r.2 < 0x2000) ∨ 0x3000 < r.1 := by decide
  obtain ⟨r, hr, -⟩ := Option.map_eq_some_iff.1 h
  have hin := List.find?_some hr
  simp only [Bool.and_eq_true, decide_eq_true_eq] at hin
  have := hapart r (List.mem_of_find?_eq_some hr)
  simp only [Text.isBlank, Bool.or_eq_false_iff, Bool.and_eq_false_iff, decide_eq_false_iff_not, beq_eq_false_iff_ne]
  omega

end Character

namespace Text

/-- White space that may stand around a number: the information separators are none. -/
def IsGap (c : CodePoint) : Prop := isBlank c = true ∧ ¬ (0x1c ≤ c.toNat ∧ c.toNat ≤ 0x1f)

inductive Digits : Text → List Nat → Prop
  | last {c : CodePoint} {d : Nat} (h : Character.digit? c = some d) : Digits [c] [d]
  | next {c : CodePoint} {d : Nat} {t : Text} {ds : List Nat} (h : Character.digit? c = some d) (rest : Digits t ds) :
      Digits (c :: t) (d :: ds)
  | spaced {c : CodePoint} {d : Nat} {t : Text} {ds : List Nat} (h : Character.digit? c = some d)
      (rest : Digits t ds) : Digits (c :: .char '_' :: t) (d :: ds)

inductive Numeral : Text → Int → Prop
  | plain {t : Text} {ds : List Nat} (h : Digits t ds) (hcount : ds.length ≤ 4300) :
      Numeral t (Nat.ofDigits 10 ds.reverse : Nat)
  | plus {t : Text} {ds : List Nat} (h : Digits t ds) (hcount : ds.length ≤ 4300) :
      Numeral (.char '+' :: t) (Nat.ofDigits 10 ds.reverse : Nat)
  | minus {t : Text} {ds : List Nat} (h : Digits t ds) (hcount : ds.length ≤ 4300) :
      Numeral (.char '-' :: t) (-(Nat.ofDigits 10 ds.reverse : Nat))

/-- How an integer may be written: decimal digits of any script, not more than 4300, with single underscores between
them, after a sign or none, and with white space around it all. -/
inductive Spells : Text → Int → Prop
  | intro {before body after : Text} {n : Int} (hbefore : ∀ c ∈ before, IsGap c) (hafter : ∀ c ∈ after, IsGap c)
      (h : Numeral body n) : Spells (before ++ (body ++ after)) n

variable {c : CodePoint} {t : Text} {d : Nat} {ds : List Nat} {n : Int}

theorem asciiForm_of_digit? (h : Character.digit? c = some d) : asciiForm c = .char (Char.ofNat (48 + d)) := by
  rw [asciiForm]
  by_cases hlt : c.toNat < 127
  · rw [if_pos hlt]
    rw [Character.digit?_of_lt hlt, Option.ite_none_right_eq_some] at h
    obtain ⟨hbounds, hd⟩ := h
    cases c with
    | surrogate r => exact absurd hlt (by simp only [CodePoint.toNat]; omega)
    | char c =>
      rw [CodePoint.toNat_char] at hbounds hd
      rw [show 48 + d = c.toNat by have := Option.some.inj hd; omega, Char.ofNat_toNat]
  · rw [if_neg hlt, if_neg (by simp [Character.not_isBlank_of_digit? h]), h]

theorem isDigit_asciiForm_iff : (asciiForm c).isDigit = true ↔ ∃ d, Character.digit? c = some d := by
  constructor
  · intro h
    by_cases hlt : c.toNat < 127
    · rw [asciiForm, if_pos hlt] at h
      exact ⟨_, by rw [Character.digit?_of_lt hlt, if_pos (CodePoint.bounds_of_isDigit h)]⟩
    · cases hd : Character.digit? c with
      | some d => exact ⟨d, rfl⟩
      | none =>
        rw [asciiForm, if_neg hlt, hd] at h
        split at h <;> exact absurd h (by decide)
  · rintro ⟨d, h⟩
    rw [asciiForm_of_digit? h]
    have hdigit : ∀ d < 10, (Char.ofNat (48 + d)).isDigit = true := by decide
    exact hdigit d (Character.lt_of_digit? h)

theorem asciiForm_eq_iff {x : Char} (hx : x ∈ ['_', '+', '-']) : asciiForm c = .char x ↔ c = .char x := by
  obtain ⟨hlt, hdigit, hspace, hmark⟩ : x.toNat < 127 ∧ x.isDigit = false ∧ x ≠ ' ' ∧ x ≠ '?' := by
    simp only [List.mem_cons, List.not_mem_nil, or_false] at hx
    rcases hx with rfl | rfl | rfl <;> decide
  constructor
  · intro h
    cases hd : Character.digit? c with
    | some d =>
      have hform : (asciiForm c).isDigit = true := isDigit_asciiForm_iff.2 ⟨d, hd⟩
      rw [h, CodePoint.isDigit_char, hdigit] at hform
      exact absurd hform Bool.false_ne_true
    | none =>
      rw [asciiForm, hd] at h
      split at h
      · exact h
      · split at h
        · exact absurd (CodePoint.char.inj h) hspace.symm
        · exact absurd (CodePoint.char.inj h) hmark.symm
  · rintro rfl
    rw [asciiForm, if_pos (by simpa using hlt)]

theorem exists_of_map_asciiForm {x : Char} (hx : x ∈ ['_', '+', '-']) {u : Text}
    (h : t.map asciiForm = .char x :: u) : ∃ v, t = .char x :: v ∧ v.map asciiForm = u := by
  obtain ⟨c, v, rfl, hc, hv⟩ := List.map_eq_cons_iff.1 h
  exact ⟨v, by rw [(asciiForm_eq_iff hx).1 hc], hv⟩

theorem isAsciiBlank_asciiForm_iff : (isAsciiBlank ∘ asciiForm) c = true ↔ IsGap c := by
  rw [IsGap, Function.comp]
  by_cases hlt : c.toNat < 127
  · have hspace : c = .char ' ' ↔ c.toNat = 32 := by
      constructor
      · rintro rfl
        rfl
      · intro h
        cases c with
        | surrogate r => simp only [CodePoint.toNat] at h; omega
        | char c => rw [← Char.ofNat_toNat c, show c.toNat = 32 from h]
    rw [asciiForm, if_pos hlt, isAsciiBlank, decide_eq_true_iff, hspace]
    simp only [isBlank, Bool.or_eq_true, Bool.and_eq_true, decide_eq_true_eq, beq_iff_eq]
    omega
  · rw [asciiForm, if_neg hlt]
    cases hb : isBlank c with
    | true =>
      rw [if_pos rfl]
      exact iff_of_true (by decide) ⟨rfl, by omega⟩
    | false =>
      rw [if_neg (by decide)]
      refine iff_of_false ?_ (fun h => absurd h.1 (by decide))
      cases hd : Character.digit? c with
      | none => decide
      | some d =>
        have hdigit : ∀ d < 10, isAsciiBlank (.char (Char.ofNat (48 + d))) = false := by decide
        simp [hdigit d (Character.lt_of_digit? hd)]

theorem Digits.exists_digit (h : Digits (c :: t) ds) : ∃ d, Character.digit? c = some d := by
  cases h with
  | last h | next h _ | spaced h _ => exact ⟨_, h⟩

theorem Digits.exists_concat (h : Digits t ds) : ∃ u c d, t = u ++ [c] ∧ Character.digit? c = some d := by
  induction h with
  | last h => exact ⟨[], _, _, rfl, h⟩
  | next h rest ih =>
    obtain ⟨u, c, d, rfl, hc⟩ := ih
    exact ⟨_ :: u, c, d, rfl, hc⟩
  | spaced h rest ih =>
    obtain ⟨u, c, d, rfl, hc⟩ := ih
    exact ⟨_ :: _ :: u, c, d, rfl, hc⟩

theorem digitsFrom?_of_digit (hd : Character.digit? c = some d) (due : Bool) :
    digitsFrom? due ((c :: t).map asciiForm) = (digitsFrom? false (t.map asciiForm)).map (d :: ·) := by
  have hvalue : ∀ d < 10, (Char.ofNat (48 + d)).toNat - 48 = d := by decide
  rw [List.map_cons, digitsFrom?, if_pos (isDigit_asciiForm_iff.2 ⟨d, hd⟩), asciiForm_of_digit? hd,
    CodePoint.toNat_char, hvalue d (Character.lt_of_digit? hd)]

theorem digitsFrom?_of_not_digit (hd : ¬ ∃ d, Character.digit? c = some d) (due : Bool) :
    digitsFrom? due ((c :: t).map asciiForm) =
      if c = .char '_' ∧ due = false then digitsFrom? true (t.map asciiForm) else none := by
  have hform : ¬ (asciiForm c).isDigit = true := fun h => hd (isDigit_asciiForm_iff.1 h)
  have hunderscore : asciiForm c = .char '_' ↔ c = .char '_' := asciiForm_eq_iff (by decide)
  simp only [List.map_cons, digitsFrom?, if_neg hform, hunderscore]

def Continues (t : Text) (ds : List Nat) : Prop :=
  (t = [] ∧ ds = []) ∨ Digits t ds ∨ ∃ u, t = .char '_' :: u ∧ Digits u ds

theorem digits_cons_iff (hd : Character.digit? c = some d) :
    Digits (c :: t) ds ↔ ∃ rest, Continues t rest ∧ d :: rest = ds := by
  constructor
  · intro h
    cases h with
    | last h =>
      obtain rfl := Option.some.inj (h.symm.trans hd)
      exact ⟨[], .inl ⟨rfl, rfl⟩, rfl⟩
    | next h rest =>
      obtain rfl := Option.some.inj (h.symm.trans hd)
      exact ⟨_, .inr (.inl rest), rfl⟩
    | spaced h rest =>
      obtain rfl := Option.some.inj (h.symm.trans hd)
      exact ⟨_, .inr (.inr ⟨_, rfl, rest⟩), rfl⟩
  · rintro ⟨rest, ⟨rfl, rfl⟩ | h | ⟨u, rfl, h⟩, rfl⟩
    · exact .last hd
    · exact .next hd h
    · exact .spaced hd h

theorem continues_cons_of_digit (hd : Character.digit? c = some d) : Continues (c :: t) ds ↔ Digits (c :: t) ds := by
  constructor
  · rintro (⟨h, -⟩ | h | ⟨u, h, -⟩)
    · nomatch h
    · exact h
    · rw [(List.cons.inj h).1] at hd
      nomatch hd
  · intro h
    exact .inr (.inl h)

theorem continues_cons_of_not_digit (hc : ¬ ∃ d, Character.digit? c = some d) :
    Continues (c :: t) ds ↔ c = .char '_' ∧ Digits t ds := by
  constructor
  · rintro (⟨h, -⟩ | h | ⟨u, h, hu⟩)
    · nomatch h
    · exact absurd h.exists_digit hc
    · obtain ⟨rfl, rfl⟩ := List.cons.inj h
      exact ⟨rfl, hu⟩
  · rintro ⟨rfl, h⟩
    exact .inr (.inr ⟨t, rfl, h⟩)

theorem digitsFrom?_eq_some_iff (t : Text) :
    (∀ ds, digitsFrom? true (t.map asciiForm) = some ds ↔ Digits t ds) ∧
      ∀ ds, digitsFrom? false (t.map asciiForm) = some ds ↔ Continues t ds := by
  induction t with
  | nil =>
    refine ⟨fun ds => ⟨nofun, nofun⟩, fun ds => ⟨fun h => .inl ⟨rfl, (Option.some.inj h).symm⟩, ?_⟩⟩
    rintro (⟨-, rfl⟩ | h | ⟨u, h, -⟩)
    · rfl
    · nomatch h
    · nomatch h
  | cons c t ih =>
    obtain ⟨hdue, hfree⟩ := ih
    by_cases hc : ∃ d, Character.digit? c = some d
    · obtain ⟨d, hd⟩ := hc
      have hstep : ∀ due ds, digitsFrom? due ((c :: t).map asciiForm) = some ds ↔ Digits (c :: t) ds := by
        intro due ds
        rw [digitsFrom?_of_digit hd, Option.map_eq_some_iff, digits_cons_iff hd]
        exact exists_congr fun rest => and_congr_left' (hfree rest)
      exact ⟨hstep true, fun ds => (hstep false ds).trans (continues_cons_of_digit hd).symm⟩
    · constructor
      · intro ds
        rw [digitsFrom?_of_not_digit hc, if_neg (by simp)]
        exact ⟨nofun, fun h => absurd h.exists_digit hc⟩
      · intro ds
        rw [digitsFrom?_of_not_digit hc, continues_cons_of_not_digit hc, Option.ite_none_right_eq_some, hdue]
        exact and_congr_left' (and_iff_left rfl)

theorem ofDigits_eq (ds : List Nat) : ofDigits ds = Nat.ofDigits 10 ds.reverse := by
  induction ds using List.reverseRecOn with
  | nil => rfl
  | append_singleton ds d ih =>
    rw [ofDigits, List.foldl_append, List.reverse_append, List.reverse_singleton, List.singleton_append,
      Nat.ofDigits_cons, ← ih, Nat.add_comm]
    rfl

theorem map_natural?_eq_some_iff {f : Nat → Int} :
    (natural? (t.map asciiForm)).map f = some n ↔
      ∃ ds, Digits t ds ∧ ds.length ≤ 4300 ∧ f (Nat.ofDigits 10 ds.reverse) = n := by
  simp only [natural?, Option.map_bind, Option.bind_eq_some_iff, Function.comp, (digitsFrom?_eq_some_iff t).1,
    ← ofDigits_eq]
  refine exists_congr fun ds => and_congr_right fun _ => ?_
  rw [digitLimit]
  split
  · exact iff_of_false nofun (by omega)
  · rw [Option.map_some, Option.some_inj]
    exact (and_iff_right (by omega)).symm

def signed? : Text → Option Int
  | .char '+' :: t => (natural? t).map Int.ofNat
  | .char '-' :: t => (natural? t).map fun n => -Int.ofNat n
  | t => (natural? t).map Int.ofNat

theorem signed?_eq_some_iff : signed? (t.map asciiForm) = some n ↔ Numeral t n := by
  constructor
  · intro h
    rw [signed?.eq_def] at h
    split at h
    · next u hu =>
      obtain ⟨v, rfl, rfl⟩ := exists_of_map_asciiForm (by decide) hu
      obtain ⟨ds, hds, hcount, rfl⟩ := map_natural?_eq_some_iff.1 h
      exact .plus hds hcount
    · next u hu =>
      obtain ⟨v, rfl, rfl⟩ := exists_of_map_asciiForm (by decide) hu
      obtain ⟨ds, hds, hcount, rfl⟩ := map_natural?_eq_some_iff.1 h
      exact .minus hds hcount
    · obtain ⟨ds, hds, hcount, rfl⟩ := map_natural?_eq_some_iff.1 h
      exact .plain hds hcount
  · intro h
    cases h with
    | plus hds hcount =>
      change signed? (.char '+' :: _) = _
      rw [signed?, map_natural?_eq_some_iff]
      exact ⟨_, hds, hcount, rfl⟩
    | minus hds hcount =>
      change signed? (.char '-' :: _) = _
      rw [signed?, map_natural?_eq_some_iff]
      exact ⟨_, hds, hcount, rfl⟩
    | plain hds hcount =>
      rw [signed?.eq_def]
      split
      -- A sign is no digit, so it does not begin the digits.
      · next u hu =>
        obtain ⟨v, rfl, rfl⟩ := exists_of_map_asciiForm (by decide) hu
        obtain ⟨d, hd⟩ := hds.exists_digit
        nomatch hd
      · next u hu =>
        obtain ⟨v, rfl, rfl⟩ := exists_of_map_asciiForm (by decide) hu
        obtain ⟨d, hd⟩ := hds.exists_digit
        nomatch hd
      · rw [map_natural?_eq_some_iff]
        exact ⟨_, hds, hcount, rfl⟩

theorem not_isGap_of_digit? (h : Character.digit? c = some d) : ¬ IsGap c := by
  rintro ⟨hblank, -⟩
  rw [Character.not_isBlank_of_digit? h] at hblank
  contradiction

theorem Numeral.exists_cons (h : Numeral t n) : ∃ c u, t = c :: u ∧ ¬ IsGap c := by
  cases h with
  | plus => exact ⟨_, _, rfl, fun hgap => absurd hgap.1 (by decide)⟩
  | minus => exact ⟨_, _, rfl, fun hgap => absurd hgap.1 (by decide)⟩
  | plain h =>
    cases h with
    | last h | next h _ | spaced h _ => exact ⟨_, _, rfl, not_isGap_of_digit? h⟩

theorem Numeral.exists_concat (h : Numeral t n) : ∃ u c, t = u ++ [c] ∧ ¬ IsGap c := by
  cases h with
  | plain h =>
    obtain ⟨u, c, d, rfl, hd⟩ := h.exists_concat
    exact ⟨u, c, rfl, not_isGap_of_digit? hd⟩
  | plus h | minus h =>
    obtain ⟨u, c, d, rfl, hd⟩ := h.exists_concat
    exact ⟨_ :: u, c, rfl, not_isGap_of_digit? hd⟩

def dropGaps (t : Text) : Text := t.dropWhile (isAsciiBlank ∘ asciiForm)

theorem integer?_eq (t : Text) : integer? t = signed? ((dropGaps (dropGaps t).reverse).reverse.map asciiForm) := by
  rw [integer?, dropGaps, dropGaps, List.dropWhile_map, ← List.map_reverse, List.dropWhile_map, ← List.map_reverse]
  rfl

theorem exists_dropGaps (t : Text) : ∃ gaps, t = gaps ++ dropGaps t ∧ ∀ c ∈ gaps, IsGap c :=
  ⟨_, List.takeWhile_append_dropWhile.symm, fun _ hc => isAsciiBlank_asciiForm_iff.1 (List.mem_takeWhile_imp hc)⟩

theorem dropGaps_append {gaps u : Text} (hgaps : ∀ c ∈ gaps, IsGap c) (hc : ¬ IsGap c) :
    dropGaps (gaps ++ c :: u) = c :: u := by
  rw [dropGaps, List.dropWhile_append_of_pos fun c hc => isAsciiBlank_asciiForm_iff.2 (hgaps c hc),
    List.dropWhile_cons_of_neg (mt isAsciiBlank_asciiForm_iff.1 hc)]

theorem integer?_eq_some_iff : integer? t = some n ↔ Spells t n := by
  rw [integer?_eq, signed?_eq_some_iff]
  constructor
  · intro h
    obtain ⟨before, ht, hbefore⟩ := exists_dropGaps t
    obtain ⟨after, hrest, hafter⟩ := exists_dropGaps (dropGaps t).reverse
    rw [List.reverse_eq_iff, List.reverse_append] at hrest
    rw [ht, hrest]
    exact .intro hbefore (fun c hc => hafter c (List.mem_reverse.1 hc)) h
  · rintro ⟨hbefore, hafter, h⟩
    obtain ⟨c, u, hbody, hfirst⟩ := h.exists_cons
    obtain ⟨v, e, hbody', hlast⟩ := h.exists_concat
    rw [hbody, List.cons_append, dropGaps_append hbefore hfirst, ← List.cons_append, ← hbody, hbody',
      List.append_assoc, List.reverse_append, List.reverse_append, List.reverse_singleton, List.append_assoc,
      List.singleton_append, dropGaps_append (fun c hc => hafter c (List.mem_reverse.1 hc)) hlast,
      List.reverse_cons, List.reverse_reverse, ← hbody']
    exact h

example : integer? " +1_0\t".toText = some 10 := by decide

end Text

end ScriptMacros
