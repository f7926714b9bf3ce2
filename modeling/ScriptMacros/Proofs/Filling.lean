import Mathlib.Data.List.TakeWhile
import ScriptMacros.Proofs.Conservation
import ScriptMacros.Proofs.Pasting

namespace ScriptMacros

namespace Template

def Stands (names : List Text) (before : Option CodePoint) (text name : Text) : Prop :=
  name ∈ names ∧ isBorder before = true ∧ ∃ r, text = name ++ r ∧ isBorder r.head? = true

structure LongestStanding (names : List Text) (before : Option CodePoint) (text name : Text) : Prop where
  stands : Stands names before text name
  length_le : ∀ other, Stands names before text other → other.length ≤ name.length

/-- How a template reads a body from left to right, after some character. Where names stand, the longest is read, for
an argument in quotes with one hash sign in front. Other hash signs are copied or disappear in pairs, and all other
characters are copied. -/
inductive Reads (names : List Text) : Option CodePoint → Text → Template → Prop
  | nil {before} : Reads names before [] []
  | literal {before body t} {c : CodePoint} : c = '#' ∨ (∀ name, Stands names before (c :: body) name → name = []) →
      Reads names (some c) body t → Reads names before (c :: body) (.literal c :: t)
  | pair {before body t} : Reads names (some (.char '#')) body t → Reads names before (.char '#' :: .char '#' :: body) t
  | argument {before name body t} : LongestStanding names before (name ++ body) name →
      Reads names (name.getLast?.or before) body t →
      Reads names before (name ++ body) (.argument (names.idxOf name) false :: t)
  | quoted {before name body t} : LongestStanding names (some (.char '#')) (name ++ body) name →
      Reads names (name.getLast?.or (some (.char '#'))) body t →
      Reads names before (.char '#' :: (name ++ body)) (.argument (names.idxOf name) true :: t)

variable {names : List Text} {ps : List Parameter} {before : Option CodePoint} {body name : Text} {t : Template}
  {u : Use} {q : Parameter}

theorem parameterAt?_eq_none (h : parameterAt? (parameters names) before body = none) :
    ¬Stands names before body name := by
  rintro ⟨hmem, hb, hstart⟩
  rw [parameterAt?, if_pos hb] at h
  exact List.find?_eq_none.1 h ⟨name, names.idxOf name⟩ (mem_parameters.2 ⟨hmem, rfl⟩) (startsAt_eq_true.2 hstart)

theorem longestStanding_of_parameterAt? (h : parameterAt? (parameters names) before body = some q) :
    LongestStanding names before body q.name ∧ q.index = names.idxOf q.name := by
  obtain ⟨hb, hstart⟩ := parameterAt?_eq_some h
  rw [parameterAt?, if_pos hb] at h
  obtain ⟨hmem, hindex⟩ := mem_parameters.1 (List.mem_of_find?_eq_some h)
  refine ⟨⟨⟨hmem, hb, hstart⟩, ?_⟩, hindex⟩
  rintro other ⟨hother, -, hstart'⟩
  obtain ⟨-, l, l', hl, hnot⟩ := List.find?_eq_some_iff_append.1 h
  have hp : ⟨other, names.idxOf other⟩ ∈ parameters names := mem_parameters.2 ⟨hother, rfl⟩
  have hsorted : (parameters names).Pairwise fun p p' => p'.name.length ≤ p.name.length := longestFirst_pairwise _ _
  rw [hl] at hp hsorted
  rcases List.mem_append.1 hp with hp | hp
  · have := hnot _ hp
    rw [startsAt_eq_true.2 hstart'] at this
    contradiction
  · rcases List.mem_cons.1 hp with rfl | hp
    · exact Nat.le_refl _
    · exact (List.pairwise_cons.1 (List.pairwise_append.1 hsorted).2.1).1 _ hp

theorem Reads.unpaired {k : Nat} (hk : 0 < k) (h : Reads names (some (.char '#')) body t) :
    Reads names before (List.replicate k (.char '#') ++ body) (unpaired k ++ t) := by
  induction k using Nat.twoStepInduction generalizing before with
  | zero => contradiction
  | one => exact .literal (Or.inl rfl) h
  | more k ih _ =>
    have hu : Template.unpaired (k + 2) = Template.unpaired k := by
      rw [Template.unpaired, Nat.add_mod_right]
      rfl
    rw [hu]
    apply Reads.pair
    cases k with
    | zero => exact h
    | succ k => exact ih (Nat.succ_pos k)

theorem getLast?_or_append (v w : Text) (before : Option CodePoint) :
    w.getLast?.or (v.getLast?.or before) = (v ++ w).getLast?.or before := by
  rw [List.getLast?_append]
  exact Option.or_assoc.symm

theorem getLast?_or_cons (c : CodePoint) (w : Text) (before : Option CodePoint) :
    w.getLast?.or (some c) = (c :: w).getLast?.or before :=
  getLast?_or_append [c] w before

theorem Reads.use (hu : useAt? (parameters names) before body = some u)
    (h : Reads names ((body.take u.length).getLast?.or before) (body.drop u.length) t) :
    Reads names before body (u.segments ++ t) := by
  obtain ⟨r, rfl, hq⟩ := useAt?_eq_some hu
  obtain ⟨hlongest, hindex⟩ := longestStanding_of_parameterAt? hq
  obtain ⟨-, -, r, rfl, -⟩ := hlongest.stands
  have hlen : u.length = (List.replicate u.marks (CodePoint.char '#') ++ u.parameter.name).length := by
    simp [Use.length]
  rw [hlen, ← List.append_assoc, List.take_left, List.drop_left, ← getLast?_or_append] at h
  rw [Use.segments, hindex]
  by_cases h1 : u.marks = 1
  · rw [h1] at h hlongest ⊢
    rw [if_pos rfl]
    exact .quoted hlongest h
  · rw [if_neg h1, List.append_assoc]
    by_cases h0 : u.marks = 0
    · rw [h0] at h hlongest ⊢
      exact .argument hlongest h
    · rw [List.getLast?_replicate, if_neg h0] at h
      rw [if_neg h0] at hlongest
      exact .unpaired (Nat.pos_of_ne_zero h0) (.argument hlongest h)

theorem reads_segmentsFrom (names : List Text) (n : Nat) (before : Option CodePoint) (body : Text) :
    Reads names ((body.take n).getLast?.or before) (body.drop n) (segmentsFrom (parameters names) n before body) := by
  fun_induction segmentsFrom (parameters names) n before body with
  | case1 before =>
    cases hu : useAt? (parameters names) before [] with
    | none => exact .nil
    | some u =>
      rw [Option.map_some, Option.getD_some, ← List.append_nil u.segments]
      apply Reads.use hu
      rw [List.drop_nil]
      exact .nil
  | case2 => exact .nil
  | case3 before n c body ih =>
    rw [List.take_succ_cons, List.drop_succ_cons, ← getLast?_or_cons]
    exact ih
  | case4 before c body u hu hlen ih =>
    apply Reads.use hu
    rw [hlen]
    refine .literal (Or.inr ?_) ih
    -- The longest name that stands here is empty, as no character is used up.
    obtain ⟨hmarks, hname⟩ : u.marks = 0 ∧ u.parameter.name.length = 0 := Nat.add_eq_zero_iff.1 hlen
    obtain ⟨r, hr, hq⟩ := useAt?_eq_some hu
    rw [hmarks] at hr hq
    obtain rfl := hr
    intro name hstands
    have hle := (longestStanding_of_parameterAt? hq).1.length_le name hstands
    rw [hname] at hle
    exact List.eq_nil_of_length_eq_zero (Nat.le_zero.1 hle)
  | case5 before c body u hu n hlen ih =>
    apply Reads.use hu
    rw [hlen, List.take_succ_cons, List.drop_succ_cons, ← getLast?_or_cons]
    exact ih
  | case6 before c body hu n hn ih =>
    -- The run of hash signs is read as a whole.
    have hrun : (c :: body).take (n + 2) = List.replicate (n + 2) (.char '#') := by
      have hprefix := List.prefix_iff_eq_take.1 (List.takeWhile_prefix (· = .char '#') (l := c :: body))
      rw [hn] at hprefix
      rw [← hprefix]
      exact List.eq_replicate_iff.2 ⟨hn, fun d hd => by simpa using List.mem_takeWhile_imp hd⟩
    have hbody : c :: body = List.replicate (n + 2) (.char '#') ++ body.drop (n + 1) := by
      rw [← hrun]
      exact (List.take_append_drop (n + 2) (c :: body)).symm
    rw [getLast?_or_cons c _ before, ← List.take_succ_cons, hrun, List.getLast?_replicate] at ih
    change Reads names before (c :: body) _
    rw [hbody]
    exact .unpaired (Nat.succ_pos _) ih
  | case7 before c body hu hn ih =>
    refine .literal ?_ ih
    by_cases hc : c = '#'
    · exact Or.inl hc
    · rw [useAt?_of_ne (by simpa using hc), Option.map_eq_none_iff] at hu
      exact Or.inr fun name hstands => absurd hstands (parameterAt?_eq_none hu)

theorem Reads.index_lt (h : Reads names before body t) {i : Nat} {quoted : Bool} (hi : .argument i quoted ∈ t) :
    i < names.length := by
  induction h with
  | nil => contradiction
  | literal _ _ ih => exact ih (by simpa using hi)
  | pair _ ih => exact ih hi
  | argument hlongest _ ih =>
    rcases List.mem_cons.1 hi with he | hi
    · cases he
      exact List.idxOf_lt_length_of_mem hlongest.stands.1
    · exact ih hi
  | quoted hlongest _ ih =>
    rcases List.mem_cons.1 hi with he | hi
    · cases he
      exact List.idxOf_lt_length_of_mem hlongest.stands.1
    · exact ih hi

end Template

/-- Arguments are inserted as they are, and nothing that is inserted is read. The body is read into one template, for
which only the number of the arguments counts, and any such arguments fill that template. -/
theorem substitute_template (body : Text) (parameters : List Text) (n : Nat) :
    ∃ t : Template, Template.Reads (parameters.take n) none body t ∧ (∀ i quoted, .argument i quoted ∈ t → i < n) ∧
      ∀ arguments, arguments.length = n → substitute body parameters arguments = t.fill arguments := by
  have h := Template.reads_segmentsFrom (parameters.take n) 0 none body
  refine ⟨.ofBody (parameters.take n) body, h, ?_, ?_⟩
  · intro i quoted hi
    exact Nat.lt_of_lt_of_le (h.index_lt hi) (List.length_take_le n parameters)
  · rintro arguments rfl
    rfl

theorem substitute_template_marked :
    let body := "##p a_b#(1 #a_b###a, a".toText
    let parameters := ["a".toText, "#p".toText, "(".toText, "a_b".toText, "b".toText]
    let texts := ["#p a_b".toText, "#".toText, "\"a".toText, "##a".toText]
    let numbers := ["1".toText, "2".toText, "3".toText, "4".toText]
    (∃ t : Template, texts.length = 4 ∧ numbers.length = 4 ∧ substitute body parameters texts = t.fill texts ∧
      substitute body parameters numbers = t.fill numbers) ∧
      substitute body parameters texts = "\"#\" ##a\"\"a\"1 \"##a\"##p a_b, #p a_b".toText ∧
      substitute body parameters numbers = "\"2\" 4\"3\"1 \"4\"#1, 1".toText := by
  intro body parameters texts numbers
  obtain ⟨t, -, -, hfill⟩ := substitute_template body parameters 4
  exact ⟨⟨t, rfl, rfl, hfill texts rfl, hfill numbers rfl⟩, by decide +kernel, by decide +kernel⟩

end ScriptMacros
