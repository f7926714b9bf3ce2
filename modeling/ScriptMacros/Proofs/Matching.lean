import Mathlib.Order.Bounds.Basic
import ScriptMacros.Proofs.Reading

namespace ScriptMacros.Bracket

variable {t u : Text} {stop : CodePoint} {p : Protection} {start i j k l n : Nat}

theorem depth_eq_count (t : Text) : depth t = t.count (.char '(') - t.count (.char ')') := by
  induction t with
  | nil => rfl
  | cons c t ih =>
    rw [depth, ih]
    by_cases ho : c = '('
    · subst ho
      rw [weight_open, List.count_cons_self, List.count_cons_of_ne (by decide)]
      omega
    · by_cases hc : c = ')'
      · subst hc
        rw [weight_close, List.count_cons_self, List.count_cons_of_ne (by decide)]
        omega
      · rw [weight_of_ne ho hc, List.count_cons_of_ne ho, List.count_cons_of_ne hc, Int.zero_add]

/-- The place of the bracket that closes the group in front of the text: no beginning of what comes before it closes
more groups than it opens, and in the end all that are opened are closed. -/
structure ClosesAt (t : Text) (i : Nat) : Prop where
  bracket : t[i]? = some (.char ')')
  before : ∀ q, q <+: t.take i → q.count (.char ')') ≤ q.count (.char '(')
  total : (t.take i).count (.char '(') = (t.take i).count (.char ')')

theorem closesAt_iff : ClosesAt t i ↔ t[i]? = some (.char ')') ∧ Balanced (t.take i) := by
  constructor
  · rintro ⟨hbracket, hbefore, htotal⟩
    refine ⟨hbracket, ?_, fun q hq => ?_⟩
    · rw [depth_eq_count]
      omega
    · have := hbefore q hq
      rw [depth_eq_count]
      omega
  · rintro ⟨hbracket, htotal, hbefore⟩
    rw [depth_eq_count] at htotal
    refine ⟨hbracket, fun q hq => ?_, by omega⟩
    have := hbefore q hq
    rw [depth_eq_count] at this
    omega

theorem closesAt_append (hu : Balanced u) (v : Text) : ClosesAt (u ++ .char ')' :: v) u.length :=
  closesAt_iff.2 ⟨by simp, by simpa using hu⟩

theorem ClosesAt.exists_append (h : ClosesAt t i) : ∃ u v, t = u ++ .char ')' :: v ∧ Balanced u ∧ u.length = i := by
  obtain ⟨hbracket, hbalanced⟩ := closesAt_iff.1 h
  obtain ⟨hi, -⟩ := List.getElem?_eq_some_iff.1 hbracket
  exact ⟨t.take i, t.drop (i + 1), eq_append_of_getElem? hbracket, hbalanced, List.length_take_of_le (Nat.le_of_lt hi)⟩

theorem closing?_eq_some_iff : closing? t = some i ↔ ClosesAt t i := by
  rw [closing?, Option.map_eq_some_iff]
  constructor
  · rintro ⟨⟨u, v⟩, hcut, rfl⟩
    obtain ⟨rfl, hu⟩ := cut?_eq_some_iff.1 hcut
    exact closesAt_append hu v
  · intro h
    obtain ⟨u, v, rfl, hu, rfl⟩ := h.exists_append
    exact ⟨(u, v), cut?_eq_some_iff.2 ⟨rfl, hu⟩, rfl⟩

theorem ClosesAt.unique (hi : ClosesAt t i) (hj : ClosesAt t j) : i = j := by
  rw [← closing?_eq_some_iff] at hi hj
  exact Option.some.inj (hi.symm.trans hj)

theorem ClosesAt.append (h : ClosesAt t i) (w : Text) : ClosesAt (t ++ w) i := by
  obtain ⟨u, v, rfl, hu, rfl⟩ := h.exists_append
  simpa using closesAt_append hu (v ++ w)

theorem closing?_eq_none_iff : closing? t = none ↔ ∀ q, q <+: t → q.count (.char ')') ≤ q.count (.char '(') := by
  constructor
  · intro h q hq
    have := nonneg_of_cutFrom?_eq_none (Option.map_eq_none_iff.1 h) q hq
    rw [depth_eq_count] at this
    omega
  · intro h
    rw [Option.eq_none_iff_forall_ne_some]
    intro i hi
    obtain ⟨u, v, rfl, hu, -⟩ := (closing?_eq_some_iff.1 hi).exists_append
    -- With the closing bracket, one group more is closed than is opened.
    have hcount := h (u ++ [.char ')']) (by simp)
    have hd := hu.1
    rw [depth_eq_count] at hd
    have hnone : [CodePoint.char ')'].count (.char '(') = 0 := rfl
    rw [List.count_append, List.count_append, List.count_singleton_self, hnone] at hcount
    omega

/-- The group in front of a text is closed at the one bracket that has balanced text before it. There is none as
long as no beginning of the text closes more groups than it opens, and once there is one, it stays where it is. -/
theorem closing?_exact (t : Text) :
    (∀ i, closing? t = some i ↔ ClosesAt t i) ∧ (∀ i j, ClosesAt t i → ClosesAt t j → i = j) ∧
      (closing? t = none ↔ ∀ q, q <+: t → q.count (.char ')') ≤ q.count (.char '(')) ∧
      ∀ u, closing? t ≠ none → closing? (t ++ u) = closing? t := by
  refine ⟨fun i => closing?_eq_some_iff, fun i j hi hj => hi.unique hj, closing?_eq_none_iff, ?_⟩
  intro u h
  obtain ⟨i, hi⟩ := Option.ne_none_iff_exists'.1 h
  rw [hi]
  exact closing?_eq_some_iff.2 ((closing?_eq_some_iff.1 hi).append u)

example : closing? "a(b)c) d)".toText = some 5 := by decide

structure Matches (t : Text) (i j : Nat) : Prop where
  bracket : t[i]? = some (.char '(')
  lt : i < j
  closes : ClosesAt (t.drop (i + 1)) (j - (i + 1))

theorem matches_drop : Matches (t.drop start) i j ↔ Matches t (start + i) (start + j) := by
  have hrest : (t.drop start).drop (i + 1) = t.drop (start + i + 1) := by rw [List.drop_drop, Nat.add_assoc]
  have hlength : start + j - (start + i + 1) = j - (i + 1) := by omega
  constructor
  · rintro ⟨hbracket, hlt, hcloses⟩
    refine ⟨by rwa [List.getElem?_drop] at hbracket, Nat.add_lt_add_left hlt start, ?_⟩
    rwa [hlength, ← hrest]
  · rintro ⟨hbracket, hlt, hcloses⟩
    refine ⟨by rwa [List.getElem?_drop], Nat.lt_of_add_lt_add_left hlt, ?_⟩
    rwa [hrest, ← hlength]

theorem grouped_iff : Grouped t k ↔ ∃ i j, Matches t i j ∧ i < k ∧ k ≤ j := by
  constructor
  · rintro ⟨before, inside, after, rfl, hb, hlt, hle⟩
    refine ⟨before.length, before.length + 1 + inside.length, ⟨by simp, by omega, ?_⟩, hlt, hle⟩
    simpa using closesAt_append hb after
  · rintro ⟨i, j, ⟨hbracket, hlt, hcloses⟩, hik, hkj⟩
    obtain ⟨hi, -⟩ := List.getElem?_eq_some_iff.1 hbracket
    obtain ⟨inside, after, hrest, hb, hlength⟩ := hcloses.exists_append
    refine ⟨t.take i, inside, after, ?_, hb, ?_⟩
    · rw [← hrest]
      exact eq_append_of_getElem? hbracket
    · rw [List.length_take]
      omega

theorem grouped_drop : Grouped (t.drop start) k ↔
    ∃ i j, start ≤ i ∧ Matches t i j ∧ i < start + k ∧ start + k ≤ j := by
  rw [grouped_iff]
  constructor
  · rintro ⟨i, j, hmatches, hik, hkj⟩
    exact ⟨start + i, start + j, Nat.le_add_right start i, matches_drop.1 hmatches, by omega, by omega⟩
  · rintro ⟨i, j, hi, hmatches, hik, hkj⟩
    obtain ⟨i, rfl⟩ := Nat.exists_eq_add_of_le hi
    obtain ⟨j, rfl⟩ := Nat.exists_eq_add_of_le (Nat.le_of_lt (Nat.lt_of_le_of_lt hi hmatches.lt))
    exact ⟨i, j, matches_drop.2 hmatches, by omega, by omega⟩

theorem escaped_drop : Escaped (t.drop start) k ↔ start < start + k ∧ t[start + k - 1]? = some (.char '\\') := by
  constructor
  · rintro ⟨j, rfl, hget⟩
    rw [List.getElem?_drop] at hget
    exact ⟨by omega, hget⟩
  · rintro ⟨hlt, hget⟩
    obtain ⟨j, rfl⟩ : ∃ j, k = j + 1 := ⟨k - 1, by omega⟩
    refine ⟨j, rfl, ?_⟩
    rw [List.getElem?_drop]
    exact hget

/-- A stop at the place does not end a reading that begins at `start`: it lies behind the first bracket of a pair
and not behind the second, or a backslash stands right before it. -/
def Guards (p : Protection) (t : Text) (start k : Nat) : Prop :=
  (p.groups = true ∧ ∃ i j, start ≤ i ∧ Matches t i j ∧ i < k ∧ k ≤ j) ∨
    (p.escapes = true ∧ start < k ∧ t[k - 1]? = some (.char '\\'))

theorem protects_drop : Protects p (t.drop start) k ↔ Guards p t start (start + k) := by
  rw [Protects, Guards, grouped_drop, escaped_drop]

structure Ends (stop : CodePoint) (p : Protection) (t : Text) (start k : Nat) : Prop where
  le : start ≤ k
  stop : t[k]? = some stop
  free : ¬Guards p t start k

def ReadsTo (stop : CodePoint) (p : Protection) (t : Text) (start k : Nat) : Prop :=
  IsLeast {l | Ends stop p t start l} k ∨ ((∀ l, ¬Ends stop p t start l) ∧ k = t.length)

theorem ends_add : Ends stop p t start (start + k) ↔ (t.drop start)[k]? = some stop ∧ ¬Protects p (t.drop start) k := by
  rw [List.getElem?_drop, protects_drop]
  exact ⟨fun h => ⟨h.stop, h.free⟩, fun h => ⟨Nat.le_add_right start k, h.1, h.2⟩⟩

theorem ReadsTo.unique (hk : ReadsTo stop p t start k) (hl : ReadsTo stop p t start l) : k = l := by
  rcases hk with hk | ⟨hnone, rfl⟩
  · rcases hl with hl | ⟨hnone, -⟩
    · exact hk.unique hl
    · exact absurd hk.1 (hnone k)
  · rcases hl with hl | ⟨-, rfl⟩
    · exact absurd hl.1 (hnone l)
    · rfl

theorem StopsAt.exists_readsTo (h : StopsAt stop p (t.drop start) n) :
    ∃ k, ReadsTo stop p t start k ∧ (t.drop start).take n = t.extract start k := by
  obtain ⟨hbefore, hend⟩ := h
  have hleast : ∀ l, Ends stop p t start l → start + n ≤ l := by
    intro l hl
    obtain ⟨l, rfl⟩ := Nat.exists_eq_add_of_le hl.le
    obtain ⟨hstop, hfree⟩ := ends_add.1 hl
    by_contra hlt
    exact hfree (hbefore l (by omega) hstop)
  rcases hend with rfl | hstop
  · refine ⟨t.length, Or.inr ⟨fun l hl => ?_, rfl⟩, ?_⟩
    · have hle := hleast l hl
      obtain ⟨hlt, -⟩ := List.getElem?_eq_some_iff.1 hl.stop
      rw [List.length_drop] at hle
      have := hl.le
      omega
    · simp
  · refine ⟨start + n, Or.inl ⟨ends_add.2 hstop, fun l hl => hleast l hl⟩, ?_⟩
    simp

/-- Reading from a place takes all that stands between it and the first free stop, or the end of the text, and
nothing from behind the end. -/
theorem readUntil_exact (stop : CodePoint) (p : Protection) (t : Text) (start : Nat) :
    ∃ k, (∀ l, ReadsTo stop p t start l ↔ l = k) ∧ readUntil stop p (t.drop start) = t.extract start k ∧
      (t.length ≤ start → readUntil stop p (t.drop start) = []) := by
  have hstops := stopsAt_readUntil stop p (t.drop start)
  obtain ⟨k, hk, hslice⟩ := hstops.exists_readsTo
  refine ⟨k, fun l => ⟨fun hl => hl.unique hk, fun hl => hl ▸ hk⟩, hstops.readUntil_eq.trans hslice, ?_⟩
  intro hlength
  rw [List.drop_eq_nil_of_le hlength]
  rfl

-- The first bracket is never closed, and only the group in it keeps its comma.
example : readUntil ',' ⟨true, true⟩ ("x,(a(b,c)\\,d,e".toText.drop 2) = "(a(b,c)\\,d".toText := by decide

end ScriptMacros.Bracket
