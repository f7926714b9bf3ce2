import Mathlib.Data.List.Chain
import ScriptMacros.Association
import ScriptMacros.Template

namespace ScriptMacros

def Text.Letters (w : Text) : Prop := w ≠ [] ∧ ∀ c ∈ w, c.isAlpha = true

instance Text.Letters.decidable (w : Text) : Decidable w.Letters :=
  decidable_of_iff (w ≠ [] ∧ w.all CodePoint.isAlpha) (by rw [Text.Letters, List.all_eq_true])

inductive Piece where
  | word (w : Text)
  | marks (k : Nat)
  | sign (c : CodePoint)
deriving DecidableEq, Repr

namespace Piece

def text : Piece → Text
  | word w => w
  | marks k => List.replicate k (.char '#')
  | sign c => [c]

def ofChar (c : CodePoint) : Piece := if c.isAlpha then word [c] else if c = '#' then marks 1 else sign c

def push : Piece → List Piece → List Piece
  | word v, word w :: l => word (v ++ w) :: l
  | marks j, marks k :: l => marks (j + k) :: l
  | r, l => r :: l

def ofText (t : Text) : List Piece := t.foldr (fun c l => push (ofChar c) l) []

def Proper : Piece → Prop
  | word w => w.Letters
  | marks k => 0 < k
  | sign c => c.isAlpha = false ∧ c ≠ '#'

def Alike : Piece → Piece → Prop
  | word _, word _ => True
  | marks _, marks _ => True
  | _, _ => False

structure Longest (l : List Piece) : Prop where
  proper : ∀ r ∈ l, r.Proper
  apart : l.IsChain fun r r' => ¬r.Alike r'

theorem text_ofChar (c : CodePoint) : (ofChar c).text = [c] := by
  rw [ofChar]
  split
  · rfl
  · split
    · next h => simp [text, h]
    · rfl

theorem proper_ofChar (c : CodePoint) : (ofChar c).Proper := by
  rw [ofChar]
  split
  · next h => exact ⟨by simp, by simpa using h⟩
  · next h =>
    split
    · exact Nat.one_pos
    · next hc => exact ⟨by simpa using h, hc⟩

theorem text_push (r : Piece) (l : List Piece) : (push r l).flatMap text = r.text ++ l.flatMap text := by
  fun_cases push r l with
  | case1 v w l => simp [text]
  | case2 j k l => simp only [text, List.flatMap_cons, List.replicate_add, List.append_assoc]
  | case3 r l h h' => rfl

theorem longest_push {r : Piece} {l : List Piece} (hr : r.Proper) (hl : Longest l) : Longest (push r l) := by
  obtain ⟨hp, ha⟩ := hl
  fun_cases push r l with
  | case1 v w l =>
    refine ⟨?_, ?_⟩
    · intro s hs
      rcases List.mem_cons.1 hs with rfl | hs
      · refine ⟨by simp [hr.1], ?_⟩
        intro c hc
        rcases List.mem_append.1 hc with hc | hc
        · exact hr.2 c hc
        · exact (hp (word w) List.mem_cons_self).2 c hc
      · exact hp s (List.mem_cons_of_mem _ hs)
    · cases ha with
      | singleton => exact .singleton _
      | @cons_cons _ r l h ha => exact .cons_cons (by cases r <;> exact h) ha
  | case2 j k l =>
    refine ⟨?_, ?_⟩
    · intro s hs
      rcases List.mem_cons.1 hs with rfl | hs
      · exact Nat.add_pos_left hr k
      · exact hp s (List.mem_cons_of_mem _ hs)
    · cases ha with
      | singleton => exact .singleton _
      | @cons_cons _ r l h ha => exact .cons_cons (by cases r <;> exact h) ha
  | case3 r l h h' =>
    refine ⟨?_, ?_⟩
    · intro s hs
      rcases List.mem_cons.1 hs with rfl | hs
      · exact hr
      · exact hp s hs
    · cases l with
      | nil => exact .singleton r
      | cons s l =>
        refine .cons_cons ?_ ha
        cases r <;> cases s <;> simp_all [Alike]

theorem longest_ofText (t : Text) : (ofText t).flatMap text = t ∧ Longest (ofText t) := by
  induction t with
  | nil => exact ⟨rfl, fun r hr => absurd hr List.not_mem_nil, .nil⟩
  | cons c t ih =>
    refine ⟨?_, longest_push (proper_ofChar c) ih.2⟩
    rw [show ofText (c :: t) = push (ofChar c) (ofText t) from rfl, text_push, text_ofChar, ih.1]
    rfl

example : ofText "ab##c.".toText = [word "ab".toText, marks 2, word "c".toText, sign '.'] := by decide

theorem ofText_append (t u : Text) : ofText (t ++ u) = t.foldr (fun c l => push (ofChar c) l) (ofText u) :=
  List.foldr_append

theorem foldr_letters {w : Text} {l : List Piece} (hw : w.Letters) (hl : ∀ v l', l ≠ word v :: l') :
    w.foldr (fun c l => push (ofChar c) l) l = word w :: l := by
  obtain ⟨hne, hletters⟩ := hw
  induction w with
  | nil => contradiction
  | cons c w ih =>
    have hc : ofChar c = word [c] := if_pos (hletters c List.mem_cons_self)
    rw [List.foldr_cons, hc]
    cases w with
    | nil =>
      cases l with
      | nil => rfl
      | cons r l =>
        cases r with
        | word v => exact absurd rfl (hl v l)
        | _ => rfl
    | cons d w =>
      rw [ih (List.cons_ne_nil d w) fun x hx => hletters x (List.mem_cons_of_mem c hx)]
      rfl

theorem foldr_marks {k : Nat} {l : List Piece} (hk : 0 < k) (hl : ∀ j l', l ≠ marks j :: l') :
    (List.replicate k (.char '#')).foldr (fun c l => push (ofChar c) l) l = marks k :: l := by
  induction k with
  | zero => contradiction
  | succ k ih =>
    rw [List.replicate_succ, List.foldr_cons]
    cases k with
    | zero =>
      cases l with
      | nil => rfl
      | cons r l =>
        cases r with
        | marks j => exact absurd rfl (hl j l)
        | _ => rfl
    | succ k =>
      rw [ih (Nat.succ_pos k), Nat.add_comm (k + 1) 1]
      rfl

namespace Longest

variable {r : Piece} {l : List Piece}

theorem head (h : Longest (r :: l)) : r.Proper := h.proper r List.mem_cons_self

theorem tail (h : Longest (r :: l)) : Longest l := ⟨fun s hs => h.proper s (List.mem_cons_of_mem r hs), h.apart.tail⟩

theorem not_alike {s : Piece} (h : Longest (r :: s :: l)) : ¬r.Alike s := (List.isChain_cons_cons.1 h.apart).1

theorem ne_word {v : Text} (h : Longest (word v :: l)) (w : Text) (l' : List Piece) : l ≠ word w :: l' := by
  rintro rfl
  exact h.not_alike trivial

theorem ne_marks {j : Nat} (h : Longest (marks j :: l)) (k : Nat) (l' : List Piece) : l ≠ marks k :: l' := by
  rintro rfl
  exact h.not_alike trivial

theorem isBorder_head? (h : Longest l) (hw : ∀ w l', l ≠ word w :: l') :
    Template.isBorder (l.flatMap text).head? = true := by
  cases l with
  | nil => rfl
  | cons r l =>
    have hr := h.head
    cases r with
    | word w => exact absurd rfl (hw w l)
    | marks k =>
      obtain ⟨n, rfl⟩ := Nat.exists_eq_succ_of_ne_zero (Nat.ne_of_gt hr)
      rfl
    | sign c => simp [text, Template.isBorder, hr.1]

theorem head?_ne_mark (h : Longest l) (hm : ∀ k l', l ≠ marks k :: l') : (l.flatMap text).head? ≠ some (.char '#') := by
  cases l with
  | nil => simp
  | cons r l =>
    have hr := h.head
    cases r with
    | word w =>
      obtain ⟨c, w, rfl⟩ := List.exists_cons_of_ne_nil hr.1
      have hc := hr.2 c List.mem_cons_self
      intro he
      obtain rfl : c = '#' := by simpa [text] using he
      exact absurd hc (by decide)
    | marks k => exact absurd rfl (hm k l)
    | sign c => simpa [text] using hr.2

theorem ofText_eq (h : Longest l) : ofText (l.flatMap text) = l := by
  induction l with
  | nil => rfl
  | cons r l ih =>
    rw [List.flatMap_cons, ofText_append, ih h.tail]
    cases r with
    | word w => exact foldr_letters h.head h.ne_word
    | marks k => exact foldr_marks h.head h.ne_marks
    | sign c =>
      obtain ⟨hletter, hmark⟩ := h.head
      have hc : ofChar c = sign c := by simp [ofChar, hletter, hmark]
      change push (ofChar c) l = _
      rw [hc]
      rfl

end Longest

/-- Pieces with arguments for words. A single hash sign in front of such a word puts the argument in quotes; other
runs of hash signs lose the signs that pair up. -/
def paste (argument? : Text → Option Text) : List Piece → Text
  | [] => []
  | marks k :: word w :: l =>
    match argument? w with
    | some a =>
      (if k = 1 then .char '"' :: a ++ [.char '"'] else List.replicate (k % 2) (.char '#') ++ a) ++ paste argument? l
    | none => List.replicate (k % 2) (.char '#') ++ w ++ paste argument? l
  | marks k :: l => List.replicate (k % 2) (.char '#') ++ paste argument? l
  | word w :: l => (argument? w).getD w ++ paste argument? l
  | sign c :: l => c :: paste argument? l

end Piece

namespace Template

variable {names : List Text} {w v t : Text} {before : Option CodePoint} {ps : List Parameter}

theorem mem_parameters {q : Parameter} : q ∈ parameters names ↔ q.name ∈ names ∧ q.index = names.idxOf q.name := by
  obtain ⟨n, i⟩ := q
  rw [parameters]
  rw [mem_longestFirst, List.mem_filter, List.mem_map]
  constructor
  · rintro ⟨⟨⟨n', i'⟩, hm, he⟩, hi⟩
    cases he
    exact ⟨List.mem_of_getElem? (List.mk_mem_zipIdx_iff_getElem?.1 hm), (of_decide_eq_true hi).symm⟩
  · rintro ⟨hn, hi⟩
    dsimp only at hn hi
    subst hi
    exact ⟨⟨(n, names.idxOf n), List.mk_mem_zipIdx_iff_getElem?.2 (List.getElem?_idxOf hn), rfl⟩, by simp⟩

theorem takeWhile_letters (hw : ∀ c ∈ w, c.isAlpha = true) (ht : isBorder t.head? = true) :
    (w ++ t).takeWhile CodePoint.isAlpha = w := by
  rw [List.takeWhile_append_of_pos hw]
  cases t with
  | nil => simp
  | cons c t => simp_all [isBorder]

theorem eq_of_append_eq {n r : Text} (hw : ∀ c ∈ w, c.isAlpha = true) (hn : ∀ c ∈ n, c.isAlpha = true)
    (ht : isBorder t.head? = true) (hr : isBorder r.head? = true) (h : w ++ t = n ++ r) : n = w := by
  rw [← takeWhile_letters hw ht, h, takeWhile_letters hn hr]

theorem startsAt_iff {n : Text} (hw : Text.Letters w) (hn : Text.Letters n) (ht : isBorder t.head? = true) :
    ((Text.after? n (w ++ t)).map fun r => isBorder r.head?).getD false = true ↔ n = w := by
  constructor
  · intro h
    cases ha : Text.after? n (w ++ t) with
    | none => simp [ha] at h
    | some r =>
      rw [ha] at h
      exact eq_of_append_eq hw.2 hn.2 ht h (Text.after?_eq_some.1 ha)
  · rintro rfl
    rw [Text.after?_eq_some.2 rfl]
    exact ht

section

variable (hnames : ∀ n ∈ names, Text.Letters n)

include hnames

theorem parameterAt?_word (hw : Text.Letters w) (hb : isBorder before = true) (ht : isBorder t.head? = true) :
    parameterAt? (parameters names) before (w ++ t) = if w ∈ names then some ⟨w, names.idxOf w⟩ else none := by
  have hiff : ∀ q ∈ parameters names,
      ((Text.after? q.name (w ++ t)).map fun r => isBorder r.head?).getD false = true ↔ q.name = w := fun q hq =>
    startsAt_iff hw (hnames q.name (mem_parameters.1 hq).1) ht
  rw [parameterAt?, if_pos hb]
  cases hf : (parameters names).find? fun q =>
      ((Text.after? q.name (w ++ t)).map fun r => isBorder r.head?).getD false with
  | none =>
    have hnone := List.find?_eq_none.1 hf
    symm
    apply if_neg
    intro hm
    have hq : (⟨w, names.idxOf w⟩ : Parameter) ∈ parameters names := mem_parameters.2 ⟨hm, rfl⟩
    exact hnone _ hq ((hiff _ hq).2 rfl)
  | some q =>
    have hq := List.mem_of_find?_eq_some hf
    have hs := List.find?_some hf
    obtain rfl := (hiff q hq).1 hs
    obtain ⟨hm, hi⟩ := mem_parameters.1 hq
    rw [if_pos hm, ← hi]

theorem parameterAt?_border (ht : isBorder t.head? = true) : parameterAt? (parameters names) before t = none := by
  rw [parameterAt?]
  split
  · rw [List.find?_eq_none]
    intro q hq h
    have hn := hnames q.name (mem_parameters.1 hq).1
    cases ha : Text.after? q.name t with
    | none => simp [ha] at h
    | some r =>
      obtain rfl := Text.after?_eq_some.1 ha
      obtain ⟨c, n, hc⟩ := List.exists_cons_of_ne_nil hn.1
      have hletter := hn.2 c (hc ▸ List.mem_cons_self)
      rw [hc] at ht
      simp [isBorder, hletter] at ht
  · rfl

theorem useAt?_marks {k : Nat} (hk : 0 < k) :
    useAt? (parameters names) before (List.replicate k (.char '#') ++ t) =
      (useAt? (parameters names) (some (.char '#')) t).map fun u => { u with marks := u.marks + k } := by
  induction k generalizing before with
  | zero => contradiction
  | succ k ih =>
    have hnone : parameterAt? (parameters names) before (.char '#' :: (List.replicate k (.char '#') ++ t)) = none :=
      parameterAt?_border hnames (by simp [isBorder])
    rw [List.replicate_succ, List.cons_append, useAt?, if_pos rfl, hnone]
    cases k with
    | zero =>
      simp only [List.replicate_zero, List.nil_append]
      cases useAt? (parameters names) (some (.char '#')) t <;> rfl
    | succ k =>
      rw [ih (Nat.succ_pos k)]
      cases useAt? (parameters names) (some (.char '#')) t <;> rfl

end

theorem useAt?_of_ne (ht : t.head? ≠ some (.char '#')) :
    useAt? ps before t = (parameterAt? ps before t).map (Use.mk 0) := by
  cases t with
  | nil => rfl
  | cons c t =>
    have hc : c ≠ '#' := fun he => ht (by rw [he]; rfl)
    rw [useAt?, if_neg hc]

theorem head?_word (hw : Text.Letters w) : (w ++ t).head? ≠ some (.char '#') := by
  obtain ⟨c, w', rfl⟩ := List.exists_cons_of_ne_nil hw.1
  intro h
  obtain rfl : c = '#' := by simpa using h
  exact absurd (hw.2 '#' List.mem_cons_self) (by decide)

theorem segmentsFrom_skip (ps : List Parameter) (c : CodePoint) (u t : Text) :
    segmentsFrom ps u.length (some c) (u ++ t) = segmentsFrom ps 0 (c :: u).getLast? t := by
  induction u generalizing c with
  | nil => rfl
  | cons d u ih =>
    rw [List.cons_append, List.length_cons, segmentsFrom, ih]
    rfl

theorem segmentsFrom_literal {c : CodePoint} (hc : c ≠ '#') (hu : useAt? ps before (c :: t) = none) :
    segmentsFrom ps 0 before (c :: t) = .literal c :: segmentsFrom ps 0 (some c) t := by
  have hlen : ((c :: t).takeWhile (· = .char '#')).length = 0 := by simp [hc]
  rw [segmentsFrom, hu]
  simp only [hlen]

theorem segmentsFrom_letters {b : CodePoint} (hb : b.isAlpha = true) (hv : ∀ c ∈ v, c.isAlpha = true) :
    segmentsFrom ps 0 (some b) (v ++ t) = v.map .literal ++ segmentsFrom ps 0 (b :: v).getLast? t := by
  induction v generalizing b with
  | nil => rfl
  | cons c v ih =>
    have hc := hv c List.mem_cons_self
    have hne : c ≠ '#' := by
      rintro rfl
      exact absurd hc (by decide)
    have hu : useAt? ps (some b) (c :: (v ++ t)) = none := by
      rw [useAt?_of_ne (by simpa using hne), parameterAt?, if_neg (by simp [isBorder, hb])]
      rfl
    rw [List.cons_append, segmentsFrom_literal hne hu, ih hc fun d hd => hv d (List.mem_cons_of_mem c hd)]
    rfl

theorem segmentsFrom_use {x : Text} {u : Use} (hx : x ≠ []) (hlen : u.length = x.length)
    (hu : useAt? ps before (x ++ t) = some u) :
    segmentsFrom ps 0 before (x ++ t) = u.segments ++ segmentsFrom ps 0 x.getLast? t := by
  obtain ⟨c, x, rfl⟩ := List.exists_cons_of_ne_nil hx
  rw [List.cons_append] at hu ⊢
  rw [segmentsFrom, hu]
  simp only [hlen, List.length_cons]
  rw [segmentsFrom_skip]

theorem segmentsFrom_marks {k : Nat} (hnames : ∀ n ∈ names, Text.Letters n) (hk : 0 < k)
    (ht : t.head? ≠ some (.char '#'))
    (hu : useAt? (parameters names) (some (.char '#')) t = none) :
    segmentsFrom (parameters names) 0 before (List.replicate k (.char '#') ++ t) =
      unpaired k ++ segmentsFrom (parameters names) 0 (some (.char '#')) t := by
  have hnone : useAt? (parameters names) before (List.replicate k (.char '#') ++ t) = none := by
    rw [useAt?_marks hnames hk, hu]
    rfl
  have hwhile : ((List.replicate k (CodePoint.char '#') ++ t).takeWhile (· = .char '#')).length = k := by
    rw [List.takeWhile_append_of_pos (by simp)]
    cases t with
    | nil => simp
    | cons c t => simp_all
  obtain ⟨n, rfl⟩ := Nat.exists_eq_succ_of_ne_zero (Nat.ne_of_gt hk)
  rw [List.replicate_succ, List.cons_append] at hnone hwhile ⊢
  rw [segmentsFrom, hnone]
  simp only [hwhile]
  cases n with
  | zero => rfl
  | succ n =>
    have hskip := segmentsFrom_skip (parameters names) '#' (List.replicate (n + 1) (.char '#')) t
    rw [List.length_replicate] at hskip
    dsimp only
    rw [hskip, ← List.replicate_succ, List.getLast?_replicate]
    rfl

variable (arguments : List Text)

theorem fill_append (s r : Template) : fill arguments (s ++ r) = fill arguments s ++ fill arguments r :=
  List.flatMap_append

theorem fill_literals (w : Text) : fill arguments (w.map .literal) = w := by
  induction w with
  | nil => rfl
  | cons c w ih => exact congrArg (c :: ·) ih

theorem fill_unpaired (k : Nat) : fill arguments (unpaired k) = List.replicate (k % 2) (.char '#') := by
  rw [unpaired, ← List.map_replicate, fill_literals]

def argument? (names arguments : List Text) (w : Text) : Option Text :=
  if names.contains w then some (arguments.getD (names.idxOf w) []) else none

theorem argument?_take (parameters arguments : List Text) (w : Text) :
    argument? (parameters.take arguments.length) arguments w = (parameters.zip arguments).lookup w := by
  induction parameters generalizing arguments with
  | nil =>
    rw [List.take_nil]
    rfl
  | cons n parameters ih =>
    cases arguments with
    | nil => rfl
    | cons a arguments =>
      rw [List.zip_cons_cons, List.lookup_cons, ← ih, argument?, argument?, List.length_cons, List.take_succ_cons]
      by_cases h : w = n
      · simp [h]
      · have hn : (w == n) = false := by simpa using h
        rw [hn, List.contains_cons, hn, Bool.false_or, List.idxOf_cons_ne _ (Ne.symm h)]
        simp

section

variable (hnames : ∀ n ∈ names, Text.Letters n)

include hnames

theorem fill_word (before : Option CodePoint) (hw : Text.Letters w) (hb : isBorder before = true)
    (ht : isBorder t.head? = true) :
    fill arguments (segmentsFrom (parameters names) 0 before (w ++ t)) =
      (argument? names arguments w).getD w ++ fill arguments (segmentsFrom (parameters names) 0 w.getLast? t) := by
  have hu : useAt? (parameters names) before (w ++ t) = _ := useAt?_of_ne (head?_word hw)
  rw [parameterAt?_word hnames hw hb ht] at hu
  by_cases hm : w ∈ names
  · rw [if_pos hm] at hu
    rw [segmentsFrom_use hw.1 (by simp [Use.length]) hu, fill_append]
    simp [Use.segments, unpaired, fill, Segment.fill, argument?, hm]
  · rw [if_neg hm] at hu
    obtain ⟨c, v, rfl⟩ := List.exists_cons_of_ne_nil hw.1
    have hne : c ≠ '#' := fun he => head?_word (t := t) hw (by rw [he]; rfl)
    rw [List.cons_append] at hu ⊢
    rw [segmentsFrom_literal hne hu,
      segmentsFrom_letters (hw.2 c List.mem_cons_self) fun d hd => hw.2 d (List.mem_cons_of_mem c hd),
      ← List.cons_append, ← List.map_cons, fill_append, fill_literals, argument?, if_neg (by simpa using hm)]
    rfl

theorem fill_marked {k : Nat} (hk : 0 < k) (hw : Text.Letters w) (ht : isBorder t.head? = true) (hm : w ∈ names) :
    fill arguments (segmentsFrom (parameters names) 0 before (List.replicate k (.char '#') ++ (w ++ t))) =
      (if k = 1 then .char '"' :: arguments.getD (names.idxOf w) [] ++ [.char '"']
        else List.replicate (k % 2) (.char '#') ++ arguments.getD (names.idxOf w) []) ++
        fill arguments (segmentsFrom (parameters names) 0 w.getLast? t) := by
  have hu : useAt? (parameters names) before (List.replicate k (.char '#') ++ (w ++ t)) =
      some ⟨0 + k, w, names.idxOf w⟩ := by
    rw [useAt?_marks hnames hk, useAt?_of_ne (head?_word hw), parameterAt?_word hnames hw rfl ht, if_pos hm]
    rfl
  rw [Nat.zero_add] at hu
  rw [← List.append_assoc] at hu ⊢
  rw [segmentsFrom_use (by simp [hw.1]) (by simp [Use.length]) hu, fill_append, List.getLast?_append]
  congr 1
  · rw [Use.segments]
    by_cases h1 : k = 1
    · simp [h1, fill, Segment.fill]
    · rw [if_neg h1, if_neg h1, fill_append, fill_unpaired]
      simp [fill, Segment.fill]
  · rw [List.getLast?_eq_some_getLast hw.1]
    rfl

theorem fill_segmentsFrom (before : Option CodePoint) {l : List Piece} (hl : Piece.Longest l)
    (hb : ∀ w l', l = .word w :: l' → isBorder before = true) :
    fill arguments (segmentsFrom (parameters names) 0 before (l.flatMap Piece.text)) =
      Piece.paste (argument? names arguments) l := by
  fun_induction Piece.paste (argument? names arguments) l generalizing before with
  | case1 =>
    have hu : useAt? (parameters names) before [] = none := by
      rw [useAt?_of_ne (by simp), parameterAt?_border hnames rfl]
      rfl
    rw [List.flatMap_nil, segmentsFrom, hu]
    rfl
  | case2 k w l a ha ih =>
    have hword := hl.tail.ne_word
    have hm : w ∈ names := by
      by_contra hm
      simp [argument?, hm] at ha
    obtain rfl : arguments.getD (names.idxOf w) [] = a := by simpa [argument?, hm] using ha
    have hborder := hl.tail.tail.isBorder_head? hword
    rw [← ih _ hl.tail.tail fun v l' he => absurd he (hword v l')]
    exact fill_marked arguments hnames hl.head hl.tail.head hborder hm
  | case3 k w l ha ih =>
    have hword := hl.tail.ne_word
    have hm : w ∉ names := by
      intro hm
      simp [argument?, hm] at ha
    have hborder := hl.tail.tail.isBorder_head? hword
    have hu : useAt? (parameters names) (some (.char '#')) (w ++ l.flatMap Piece.text) = none := by
      rw [useAt?_of_ne (head?_word hl.tail.head), parameterAt?_word hnames hl.tail.head rfl hborder, if_neg hm]
      rfl
    rw [← ih _ hl.tail.tail fun v l' he => absurd he (hword v l')]
    have hfill := fill_word arguments hnames (some (.char '#')) hl.tail.head rfl hborder
    rw [ha, Option.getD_none] at hfill
    rw [List.append_assoc, ← hfill, ← fill_unpaired arguments k, ← fill_append]
    apply congrArg
    exact segmentsFrom_marks hnames hl.head (head?_word hl.tail.head) hu
  | case4 k l hword ih =>
    have hmark := hl.tail.head?_ne_mark hl.ne_marks
    have hborder := hl.tail.isBorder_head? fun w l' he => hword w l' he
    have hu : useAt? (parameters names) (some (.char '#')) (l.flatMap Piece.text) = none := by
      rw [useAt?_of_ne hmark, parameterAt?_border hnames hborder]
      rfl
    rw [← ih (some (.char '#')) hl.tail fun _ _ _ => rfl, ← fill_unpaired arguments k, ← fill_append]
    exact congrArg _ (segmentsFrom_marks hnames hl.head hmark hu)
  | case5 w l ih =>
    have hborder := hl.tail.isBorder_head? hl.ne_word
    rw [← ih _ hl.tail fun v l' he => absurd he (hl.ne_word v l')]
    exact fill_word arguments hnames before hl.head (hb w l rfl) hborder
  | case6 c l ih =>
    obtain ⟨hletter, hmark⟩ := hl.head
    have hc : isBorder (some c) = true := by simp [isBorder, hletter]
    have hu : useAt? (parameters names) before (c :: l.flatMap Piece.text) = none := by
      rw [useAt?_of_ne (by simpa using hmark), parameterAt?_border (t := c :: l.flatMap Piece.text) hnames hc]
      rfl
    rw [← ih (some c) hl.tail fun _ _ _ => hc]
    exact congrArg _ (segmentsFrom_literal hmark hu)

end

end Template

theorem substitute_eq_paste {body : Text} {parameters arguments : List Text} (h : ∀ n ∈ parameters, Text.Letters n) :
    substitute body parameters arguments =
      Piece.paste (Template.argument? (parameters.take arguments.length) arguments) (Piece.ofText body) := by
  obtain ⟨htext, hlong⟩ := Piece.longest_ofText body
  have hnames : ∀ n ∈ parameters.take arguments.length, Text.Letters n := fun n hn => h n (List.mem_of_mem_take hn)
  have hf := Template.fill_segmentsFrom arguments hnames none hlong fun _ _ _ => rfl
  rw [htext] at hf
  exact hf

/-- What substitution does where all parameters are words. The longest runs of letters, the longest runs of hash signs
and the other signs of the body are pasted, with the argument for a parameter that has one; of equal parameters the
first counts. -/
theorem substitute_words {parameters : List Text} (h : ∀ n ∈ parameters, Text.Letters n) (body : Text)
    (arguments : List Text) :
    (∃! l, l.flatMap Piece.text = body ∧ Piece.Longest l) ∧
      ∀ l, l.flatMap Piece.text = body → Piece.Longest l →
        substitute body parameters arguments = Piece.paste (fun w => (parameters.zip arguments).lookup w) l := by
  refine ⟨⟨Piece.ofText body, Piece.longest_ofText body, ?_⟩, ?_⟩
  · rintro l ⟨rfl, hl⟩
    exact hl.ofText_eq.symm
  · rintro l rfl hl
    rw [substitute_eq_paste h, hl.ofText_eq]
    congr 1
    funext w
    exact Template.argument?_take parameters arguments w

theorem substitute_words_marked :
    let parameters := ["a".toText, "ab".toText, "a".toText, "c".toText]
    let arguments := ["#ab".toText, "c".toText, "d".toText]
    let l : List Piece := [.word "ab".toText, .marks 1, .word "a".toText, .sign '_', .marks 3, .word "ab".toText,
      .marks 1, .word "c".toText, .marks 2, .sign ' ', .word "aba".toText]
    (∀ n ∈ parameters, Text.Letters n) ∧ Piece.Longest l ∧ l.flatMap Piece.text = "ab#a_###ab#c## aba".toText ∧
      (∃! l, l.flatMap Piece.text = "ab#a_###ab#c## aba".toText ∧ Piece.Longest l) ∧
      substitute "ab#a_###ab#c## aba".toText parameters arguments =
        Piece.paste (fun w => (parameters.zip arguments).lookup w) l ∧
      substitute "ab#a_###ab#c## aba".toText parameters arguments = "c\"#ab\"_#c#c aba".toText := by
  intro parameters arguments l
  have hwords : ∀ n ∈ parameters, Text.Letters n := by decide
  have hl : Piece.Longest l := Piece.longest_ofText "ab#a_###ab#c## aba".toText |>.2
  obtain ⟨hone, hpaste⟩ := substitute_words hwords "ab#a_###ab#c## aba".toText arguments
  exact ⟨hwords, hl, rfl, hone, hpaste l rfl hl, hpaste l rfl hl⟩

end ScriptMacros
