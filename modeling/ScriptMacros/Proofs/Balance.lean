import ScriptMacros.Proofs.Bracket
import ScriptMacros.Proofs.Filling
import ScriptMacros.Proofs.Settling

namespace ScriptMacros

theorem Text.exists_eq_append_trim (t : Text) :
    ∃ a b : Text, t = a ++ (t.trim ++ b) ∧ (∀ c ∈ a, isBlank c = true) ∧ ∀ c ∈ b, isBlank c = true := by
  refine ⟨t.takeWhile isBlank, (t.trimStart.reverse.takeWhile isBlank).reverse, ?_, ?_, ?_⟩
  · rw [trim, trimEnd, ← List.reverse_append, List.takeWhile_append_dropWhile, List.reverse_reverse, trimStart,
      List.takeWhile_append_dropWhile]
  · exact fun c hc => List.mem_takeWhile_imp hc
  · exact fun c hc => List.mem_takeWhile_imp (List.mem_reverse.1 hc)

namespace Bracket

variable {t t' u v x y passed : Text} {level : Int}

theorem Balanced.of_append (h : Balanced (u ++ v)) (hu : depth u = 0) : Balanced u ∧ Balanced v := by
  obtain ⟨hd, hq⟩ := h
  rw [depth_append, hu, Int.zero_add] at hd
  refine ⟨⟨hu, fun q hp => hq q (hp.trans (List.prefix_append u v))⟩, hd, ?_⟩
  intro q hp
  have := hq (u ++ q) ((List.prefix_append_right_inj u).2 hp)
  rwa [depth_append, hu, Int.zero_add] at this

theorem Balanced.replace (h : Balanced (x ++ (u ++ y))) (hu : Balanced u) (hv : Balanced v) :
    Balanced (x ++ (v ++ y)) := by
  have hdepth : ∀ z, depth (x ++ (v ++ z)) = depth (x ++ (u ++ z)) := by simp [depth_append, hu.1, hv.1]
  refine ⟨by rw [hdepth, h.1], ?_⟩
  intro q hq
  rcases prefix_append_cases hq with hx | ⟨r, -, rfl, hr⟩
  · exact h.2 q (hx.trans (List.prefix_append _ _))
  · rcases prefix_append_cases hr with hr | ⟨z, -, rfl, hz⟩
    · have hx := h.2 x (List.prefix_append _ _)
      have := hv.2 r hr
      rw [depth_append]
      omega
    · rw [hdepth]
      apply h.2
      simpa [List.prefix_append_right_inj] using hz

theorem Balanced.group (h : Balanced u) : Balanced (.char '(' :: (u ++ [.char ')'])) :=
  Balanced.replace (x := [.char '(']) (u := []) (by decide) (by decide) h

def ReplacedBy (t t' : Text) : Prop := ∀ x, Balanced (x ++ t) → Balanced (x ++ t')

theorem ReplacedBy.cons (h : ReplacedBy t t') (c : CodePoint) : ReplacedBy (c :: t) (c :: t') := by
  intro x hx
  have := h (x ++ [c]) (by simpa using hx)
  simpa using this

theorem ReplacedBy.insert (h : ReplacedBy t t') (hu : Balanced u) (hv : Balanced v) :
    ReplacedBy (u ++ t) (v ++ t') := by
  intro x hx
  rw [← List.append_assoc]
  apply h
  rw [List.append_assoc]
  exact hx.replace hu hv

theorem balanced_of_blank (h : ∀ c ∈ t, Text.isBlank c = true) : Balanced t := by
  apply balanced_of_notMem
  · exact fun hm => absurd (h _ hm) (by decide)
  · exact fun hm => absurd (h _ hm) (by decide)

theorem depth_of_blank (h : ∀ c ∈ t, Text.isBlank c = true) : depth t = 0 := (balanced_of_blank h).1

theorem Balanced.trim (h : Balanced t) : Balanced t.trim := by
  obtain ⟨a, b, ht, ha, hb⟩ := Text.exists_eq_append_trim t
  rw [ht] at h
  have hrest := (h.of_append (depth_of_blank ha)).2
  have hd := hrest.1
  rw [depth_append, depth_of_blank hb, Int.add_zero] at hd
  exact (hrest.of_append hd).1

theorem balanced_of_mem_piecesFrom (h : Balanced (passed.reverse ++ t)) (hlevel : level = depth passed.reverse)
    (hu : u ∈ piecesFrom passed level t) : Balanced u := by
  fun_induction piecesFrom passed level t with
  | case1 passed level =>
    obtain rfl := List.mem_singleton.1 hu
    simpa using h
  | case2 passed level c t hc ih =>
    obtain ⟨rfl, rfl⟩ := hc
    obtain ⟨hp, ht⟩ := h.of_append hlevel.symm
    rcases List.mem_cons.1 hu with rfl | hu
    · exact hp
    · exact ih (Balanced.of_append (u := [.char ',']) ht rfl).2 rfl hu
  | case3 passed level c t hc ih =>
    apply ih _ _ hu
    · simpa using h
    · simp [depth_append, hlevel, depth]

theorem balanced_of_mem_arguments (h : Balanced t) (hu : u ∈ arguments t) : Balanced u := by
  obtain ⟨a, ha, rfl⟩ := exists_of_mem_arguments hu
  exact (balanced_of_mem_piecesFrom (by simpa using h) rfl ha).trim

end Bracket

open ScriptMacros.Bracket

namespace Template

variable {names arguments : List Text} {before : Option CodePoint} {body : Text} {t : Template}

theorem balanced_getD (h : ∀ a ∈ arguments, Balanced a) (i : Nat) : Balanced (arguments.getD i []) := by
  rw [List.getD_eq_getElem?_getD]
  cases hi : arguments[i]? with
  | none => exact balanced_of_notMem (by simp) (by simp)
  | some a => exact h a (List.mem_of_getElem? hi)

theorem Reads.replacedBy_fill (h : Reads names before body t) (hnames : ∀ n ∈ names, Balanced n)
    (harguments : ∀ a ∈ arguments, Balanced a) : ReplacedBy body (t.fill arguments) := by
  induction h with
  | nil => exact fun x hx => hx
  | literal _ _ ih => exact ih.cons _
  | pair _ ih => exact ih.insert (u := [.char '#', .char '#']) (v := []) (by decide) (by decide)
  | argument hlongest _ ih => exact ih.insert (hnames _ hlongest.stands.1) (balanced_getD harguments _)
  | @quoted _ name _ _ hlongest _ ih =>
    have hname := hnames name hlongest.stands.1
    have ha := balanced_getD harguments (names.idxOf name)
    have hquote : Balanced ['"'] := by decide
    have hmark : Balanced ['#'] := by decide
    exact ih.insert (hmark.append hname) ((hquote.append ha).append hquote)

end Template

theorem balanced_substitute {body : Text} {parameters arguments : List Text} (hbody : Balanced body)
    (hparameters : ∀ n ∈ parameters, Balanced n) (harguments : ∀ a ∈ arguments, Balanced a) :
    Balanced (substitute body parameters arguments) :=
  (Template.reads_segmentsFrom _ 0 none body).replacedBy_fill (fun n hn => hparameters n (List.mem_of_mem_take hn))
    harguments [] hbody

structure Macro.Balanced (m : Macro) : Prop where
  name : Bracket.Balanced m.name
  parameters : ∀ n ∈ m.parameters.getD [], Bracket.Balanced n
  body : Bracket.Balanced m.body

instance Macro.Balanced.decidable (m : Macro) : Decidable m.Balanced :=
  decidable_of_iff
    (Bracket.Balanced m.name ∧ (∀ n ∈ m.parameters.getD [], Bracket.Balanced n) ∧ Bracket.Balanced m.body)
    ⟨fun ⟨hn, hp, hb⟩ => ⟨hn, hp, hb⟩, fun h => ⟨h.name, h.parameters, h.body⟩⟩

theorem Macro.Balanced.invocationAt? {m : Macro} {t : Text} {i : Invocation} (hm : m.Balanced)
    (h : m.invocationAt? t = some i) : Bracket.Balanced i.written ∧ Bracket.Balanced i.replacement := by
  rw [Macro.invocationAt?] at h
  split at h
  · contradiction
  · cases h
    exact ⟨hm.name, hm.body⟩
  · next parameters _ hparameters =>
    obtain ⟨⟨inside, after⟩, hcut, rfl⟩ := Option.map_eq_some_iff.1 h
    have hinside := (cut?_eq_some_iff.1 hcut).2
    have hnames := hm.parameters
    rw [hparameters] at hnames
    refine ⟨hm.name.append hinside.group, ?_⟩
    exact balanced_substitute hm.body hnames fun a ha => balanced_of_mem_arguments hinside ha
  · contradiction

theorem Macro.Balanced.result {m : Macro} {line : Text} {i : Invocation} (hm : m.Balanced)
    (h : m.invocation? line = some i) (hline : Bracket.Balanced line) : Bracket.Balanced (i.result line) := by
  have hi : Bracket.Balanced i.written ∧ Bracket.Balanced i.replacement := by
    rw [Macro.invocation?_eq] at h
    obtain ⟨before, rest, j, rfl, hj, rfl⟩ := Invocation.exists_of_first? h
    exact hm.invocationAt? (i := j) hj
  obtain ⟨before, hb, rfl⟩ := Macro.cuts_of_invocation? h
  rw [Invocation.result_eq hb, List.append_assoc]
  rw [List.append_assoc] at hline
  exact hline.replace hi.1 hi.2

namespace Expansion

variable {ms : List Macro} {line u : Text} {k : Nat}

theorem balanced_next? (hms : ∀ m ∈ ms, m.Balanced) (hline : Balanced line) (h : next? ms line = some u) :
    Balanced u := by
  obtain ⟨m, i, hf, rfl⟩ := exists_of_next?_eq_some h
  obtain ⟨hm, hi⟩ := firstInvocation?_eq_some hf
  exact (hms m hm).result hi hline

theorem balanced_lineAfter? (hms : ∀ m ∈ ms, m.Balanced) (hline : Balanced line)
    (h : lineAfter? ms line k = some u) : Balanced u := by
  induction k generalizing u with
  | zero =>
    obtain rfl := Option.some.inj h
    exact hline
  | succ k ih =>
    obtain ⟨v, hv, hu⟩ := Option.bind_eq_some_iff.1 h
    exact balanced_next? hms (ih hv) hu

theorem exists_lineAfter?_of_expand {limit : Limit} {r : Text} (h : expand ms limit line = .ok r) :
    ∃ k, lineAfter? ms line k = some r := by
  obtain ⟨k, -, -, hk, -⟩ := expand_eq_ok_iff.1 h
  exact ⟨k, hk⟩

end Expansion

open Expansion in
/-- Where the bodies and the names of all macros are balanced, so is every line on the way from a balanced line to what
it becomes, whatever the limit. Names without brackets are balanced. -/
theorem MacroTable.balanced_expand {t : MacroTable} (ht : ∀ m ∈ t.macros, m.Balanced) {line : Text}
    (hline : Balanced line) :
    (∀ k u, lineAfter? t.byLength line k = some u → Balanced u) ∧
      ∀ limit r, t.expand limit line = .ok r → Balanced r ∧ ∃ k, lineAfter? t.byLength line k = some r := by
  have hms : ∀ m ∈ t.byLength, m.Balanced := fun m hm => ht m (mem_longestFirst.1 hm)
  refine ⟨fun k u hu => balanced_lineAfter? hms hline hu, ?_⟩
  intro limit r hr
  obtain ⟨k, hk⟩ := exists_lineAfter?_of_expand hr
  exact ⟨balanced_lineAfter? hms hline hk, k, hk⟩

open Expansion in
theorem MacroTable.balanced_expand_nested :
    let define (name : String) (parameters : Option (List Text)) (body : String) : Registration :=
      ⟨name.toText, parameters, { value := body.toText, location := ⟨[], 1, 1⟩ }⟩
    let t := ofList [define "MAX" (some ["a".toText, "b".toText]) "((a) > (b) ? (a) : (b))", define "ONE" none "(1)",
      define "F" (some ["x".toText]) "-#x"]
    let line := "g(MAX(F(ONE), h(3, 4) )) + MAX".toText
    let result := "g(((-\"(1)\") > (h(3, 4)) ? (-\"(1)\") : (h(3, 4)))) + MAX".toText
    (∀ m ∈ t.macros, m.Balanced) ∧ Balanced line ∧ t.expand (.count 10) line = .ok result ∧ Balanced result ∧
      (∃ k, lineAfter? t.byLength line k = some result) ∧
      ∀ k u, lineAfter? t.byLength line k = some u → Balanced u := by
  intro define t line result
  have ht : ∀ m ∈ t.macros, m.Balanced := by decide +kernel
  have hline : Balanced line := by decide +kernel
  have hexpand : t.expand (.count 10) line = .ok result := by decide +kernel
  obtain ⟨hlines, hresult⟩ := balanced_expand ht hline
  obtain ⟨hbalanced, hreached⟩ := hresult (.count 10) result hexpand
  exact ⟨ht, hline, hexpand, hbalanced, hreached, hlines⟩

end ScriptMacros
