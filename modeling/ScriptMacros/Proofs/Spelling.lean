import ScriptMacros.Proofs.Path

namespace ScriptMacros

/-- No character beyond ASCII is written byte by byte. -/
def Text.Whole (t : Text) : Prop :=
  ∀ c : Char, 0x80 ≤ c.toNat → ¬(Utf8.ofChar c).map DiskName.escape <:+: t

theorem Text.Whole.mono {t u : Text} (h : u.Whole) (hs : t <:+: u) : t.Whole :=
  fun c hc hi => h c hc (hi.trans hs)

namespace Utf8

theorem ofChar_append_inj {c c' : Char} {r r' : List UInt8} (h : ofChar c ++ r = ofChar c' ++ r') :
    c = c' ∧ r = r' := by
  obtain ⟨b, tail, hc, hread⟩ := charFrom_ofChar c
  obtain ⟨b', tail', hc', hread'⟩ := charFrom_ofChar c'
  have hh := h
  rw [hc, hc', List.cons_append, List.cons_append, List.cons.injEq] at hh
  obtain ⟨rfl, ht⟩ := hh
  have hr := hread r
  rw [ht, hread' r'] at hr
  obtain rfl : c' = c := congrArg Prod.fst (Except.ok.inj hr)
  exact ⟨rfl, List.append_cancel_left h⟩

def Continues (b : UInt8) : Prop := 0x80 ≤ b.toNat ∧ b.toNat < 0xc0

theorem continues_byte (n : Nat) : Continues (UInt8.ofNat (0x80 + n % 64)) := by
  rw [Continues]
  rw [toNat_byte (by omega)]
  omega

theorem ofChar_eq_cons (c : Char) :
    ∃ b tail, ofChar c = b :: tail ∧ ¬Continues b ∧ (0x80 ≤ b.toNat → 0x80 ≤ c.toNat) ∧ ∀ x ∈ tail, Continues x := by
  have hc : c.toNat < 0xd800 ∨ 0xdfff < c.toNat ∧ c.toNat < 0x110000 := c.valid
  simp only [ofChar, Continues]
  generalize c.toNat = n at hc
  by_cases h1 : n < 0x80
  · refine ⟨UInt8.ofNat n, [], by simp [h1], ?_⟩
    rw [toNat_byte (by omega)]
    simp
    omega
  by_cases h2 : n < 0x800
  · refine ⟨UInt8.ofNat (0xc0 + n / 64), [UInt8.ofNat (0x80 + n % 64)], by simp [h1, h2], ?_⟩
    rw [toNat_byte (by omega)]
    refine ⟨by omega, by omega, ?_⟩
    rintro x hx
    obtain rfl : x = _ := List.mem_singleton.1 hx
    exact continues_byte n
  by_cases h3 : n < 0x10000
  · refine ⟨UInt8.ofNat (0xe0 + n / 4096), [UInt8.ofNat (0x80 + n / 64 % 64), UInt8.ofNat (0x80 + n % 64)],
      by simp [h1, h2, h3], ?_⟩
    rw [toNat_byte (by omega)]
    refine ⟨by omega, by omega, ?_⟩
    intro x hx
    rcases List.mem_cons.1 hx with rfl | hx
    · exact continues_byte _
    · obtain rfl : x = _ := List.mem_singleton.1 hx
      exact continues_byte n
  · refine ⟨UInt8.ofNat (0xf0 + n / 262144), [UInt8.ofNat (0x80 + n / 4096 % 64),
      UInt8.ofNat (0x80 + n / 64 % 64), UInt8.ofNat (0x80 + n % 64)], by simp [h1, h2, h3], ?_⟩
    rw [toNat_byte (by omega)]
    refine ⟨by omega, by omega, ?_⟩
    intro x hx
    rcases List.mem_cons.1 hx with rfl | hx
    · exact continues_byte _
    · rcases List.mem_cons.1 hx with rfl | hx
      · exact continues_byte _
      · obtain rfl : x = _ := List.mem_singleton.1 hx
        exact continues_byte n

end Utf8

namespace DiskName

theorem ofText?_cons_eq_some {q : CodePoint} {t : Text} {k : DiskName} (h : ofText? (q :: t) = some k) :
    ∃ b r, ofPoint? q = some b ∧ ofText? t = some r ∧ k = b ++ r := by
  rw [ofText?] at h
  split at h
  · next b r hb hr => exact ⟨b, r, hb, hr, (Option.some.inj h).symm⟩
  · contradiction

theorem ofPoint?_ne_nil {q : CodePoint} {b : DiskName} (h : ofPoint? q = some b) : b ≠ [] := by
  cases q with
  | char c =>
    obtain ⟨a, tail, hc, -⟩ := Utf8.charFrom_ofChar c
    obtain rfl : Utf8.ofChar c = b := Option.some.inj h
    rw [hc]
    exact List.cons_ne_nil a tail
  | surrogate d =>
    obtain ⟨a, rfl, -⟩ := eq_escape_of_ofPoint? h
    exact List.cons_ne_nil a []

theorem escapes_prefix {bytes r : DiskName} {t : Text} (hb : ∀ x ∈ bytes, Utf8.Continues x)
    (h : ofText? t = some (bytes ++ r)) : bytes.map escape <+: t := by
  induction bytes generalizing t with
  | nil => exact List.nil_prefix
  | cons b bytes ih =>
    cases t with
    | nil => simp [ofText?] at h
    | cons q t =>
      obtain ⟨k, s, hk, hs, he⟩ := ofText?_cons_eq_some h
      cases q with
      | char c =>
        obtain ⟨a, tail, hc, hstart, -⟩ := Utf8.ofChar_eq_cons c
        obtain rfl : Utf8.ofChar c = k := Option.some.inj hk
        rw [hc, List.cons_append, List.cons_append, List.cons.injEq] at he
        exact absurd (he.1 ▸ hb b List.mem_cons_self) hstart
      | surrogate d =>
        obtain ⟨a, rfl, -, hd⟩ := eq_escape_of_ofPoint? hk
        rw [List.cons_append, List.singleton_append, List.cons.injEq] at he
        obtain ⟨rfl, rfl⟩ := he
        rw [List.map_cons, hd, List.cons_prefix_cons]
        exact ⟨rfl, ih (fun x hx => hb x (List.mem_cons_of_mem b hx)) hs⟩

theorem not_whole {c : Char} {d : Fin 0x800} {t : Text} {r : DiskName}
    (h : ofText? (.surrogate d :: t) = some (Utf8.ofChar c ++ r)) :
    ¬Text.Whole (.surrogate d :: t) := by
  obtain ⟨b, tail, hc, -, hbig, htail⟩ := Utf8.ofChar_eq_cons c
  obtain ⟨k, s, hk, hs, he⟩ := ofText?_cons_eq_some h
  obtain ⟨a, rfl, ha, hd⟩ := eq_escape_of_ofPoint? hk
  rw [hc, List.cons_append, List.singleton_append, List.cons.injEq] at he
  obtain ⟨rfl, rfl⟩ := he
  have hb : 0x80 ≤ b.toNat := by
    rw [UInt8.lt_iff_toNat_lt] at ha
    exact Nat.not_lt.1 ha
  intro hw
  apply hw c (hbig hb)
  rw [hc, List.map_cons, hd]
  exact (List.cons_prefix_cons.2 ⟨rfl, escapes_prefix htail hs⟩).isInfix

theorem eq_of_ofText?_eq {n m : Text} {k : DiskName} (hn : n.Whole) (hm : m.Whole) (h : ofText? n = some k)
    (h' : ofText? m = some k) : n = m := by
  induction n generalizing m k with
  | nil =>
    obtain rfl : k = [] := (Option.some.inj h).symm
    cases m with
    | nil => rfl
    | cons q m =>
      obtain ⟨b, r, hb, -, he⟩ := ofText?_cons_eq_some h'
      exact absurd (List.append_eq_nil_iff.1 he.symm).1 (ofPoint?_ne_nil hb)
  | cons p n ih =>
    obtain ⟨b, r, hb, hr, rfl⟩ := ofText?_cons_eq_some h
    cases m with
    | nil => exact absurd (List.append_eq_nil_iff.1 (Option.some.inj h').symm).1 (ofPoint?_ne_nil hb)
    | cons q m =>
      obtain ⟨b', r', hb', hr', he⟩ := ofText?_cons_eq_some h'
      have htail : r = r' → n = m := by
        rintro rfl
        exact ih (hn.mono (List.suffix_cons p n).isInfix) (hm.mono (List.suffix_cons q m).isInfix) hr hr'
      cases p with
      | char c =>
        obtain rfl : Utf8.ofChar c = b := Option.some.inj hb
        cases q with
        | char c' =>
          obtain rfl : Utf8.ofChar c' = b' := Option.some.inj hb'
          obtain ⟨rfl, hrr⟩ := Utf8.ofChar_append_inj he
          rw [htail hrr]
        | surrogate d => exact absurd hm (not_whole h')
      | surrogate d =>
        cases q with
        | char c =>
          obtain rfl : Utf8.ofChar c = b' := Option.some.inj hb'
          exact absurd hn (not_whole (he ▸ h))
        | surrogate d' =>
          obtain ⟨a, rfl, -, hd⟩ := eq_escape_of_ofPoint? hb
          obtain ⟨a', rfl, -, hd'⟩ := eq_escape_of_ofPoint? hb'
          rw [List.singleton_append, List.singleton_append, List.cons.injEq] at he
          obtain ⟨rfl, hrr⟩ := he
          rw [← hd, ← hd', htail hrr]

end DiskName

namespace Address

def Whole (a : Address) : Prop := ∀ n ∈ a, Text.Whole n

theorem eq_of_place?_eq {a b : Address} {q : Place} (ha : a.Whole) (hb : b.Whole) (h : a.place? = some q)
    (h' : b.place? = some q) : a = b := by
  induction a generalizing b q with
  | nil =>
    obtain rfl : q = [] := (Option.some.inj h).symm
    cases b with
    | nil => rfl
    | cons m b =>
      rw [place?] at h'
      split at h' <;> simp at h'
  | cons n a ih =>
    rw [place?] at h
    split at h
    · next k q hk hq =>
      cases h
      cases b with
      | nil => simp [place?] at h'
      | cons m b =>
        rw [place?] at h'
        split at h'
        · next k' q' hk' hq' =>
          cases h'
          have hn := DiskName.eq_of_ofText?_eq (ha n List.mem_cons_self) (hb m List.mem_cons_self) hk hk'
          have ht := ih (fun x hx => ha x (List.mem_cons_of_mem n hx)) (fun x hx => hb x (List.mem_cons_of_mem m hx))
            hq hq'
          rw [hn, ht]
        · contradiction
    · contradiction

end Address

section

variable {α : Type} [DecidableEq α] {s : α} {w t : List α}

theorem prefix_of_prefix_squeeze (hw : s ∉ w) (h : w <+: Text.squeeze s t) : w <+: t := by
  fun_induction Text.squeeze s t generalizing w with
  | case1 => exact h
  | case2 c t hc ih =>
    have hp := ih hw h
    cases t with
    | nil => simp at hc
    | cons d t =>
      cases w with
      | nil => exact List.nil_prefix
      | cons e w =>
        have hd : d = s := by simpa using hc.2
        have he := (List.cons_prefix_cons.1 hp).1
        exact absurd (he.trans hd ▸ List.mem_cons_self) hw
  | case3 c t _ ih =>
    cases w with
    | nil => exact List.nil_prefix
    | cons e w =>
      obtain ⟨rfl, hp⟩ := List.cons_prefix_cons.1 h
      exact List.cons_prefix_cons.2 ⟨rfl, ih (fun hm => hw (List.mem_cons_of_mem e hm)) hp⟩

theorem infix_of_infix_squeeze (hw : s ∉ w) (h : w <:+: Text.squeeze s t) : w <:+: t := by
  fun_induction Text.squeeze s t with
  | case1 => exact h
  | case2 c t _ ih => exact List.infix_cons (ih h)
  | case3 c t _ ih =>
    rcases List.infix_cons_iff.1 h with hp | hi
    · cases w with
      | nil => exact List.nil_infix
      | cons e w =>
        obtain ⟨rfl, hq⟩ := List.cons_prefix_cons.1 hp
        have hpt := prefix_of_prefix_squeeze (fun hm => hw (List.mem_cons_of_mem e hm)) hq
        exact (List.cons_prefix_cons.2 ⟨rfl, hpt⟩).isInfix
    · exact List.infix_cons (ih hi)

end

namespace Text

variable {t u w : Text}

theorem char_notMem_escapes {k : DiskName} (c : Char) : CodePoint.char c ∉ k.map DiskName.escape := by
  intro h
  obtain ⟨b, -, hb⟩ := List.mem_map.1 h
  exact CodePoint.noConfusion hb

theorem whole_of_characters (cs : List Char) : Whole (cs.map .char) := by
  intro c hc hi
  obtain ⟨b, tail, hb, -, -, -⟩ := Utf8.ofChar_eq_cons c
  have hmem : DiskName.escape b ∈ (Utf8.ofChar c).map DiskName.escape := by
    rw [hb]
    exact List.mem_cons_self
  obtain ⟨d, -, hd⟩ := List.mem_map.1 (hi.subset hmem)
  exact CodePoint.noConfusion hd

theorem Whole.map {f : CodePoint → CodePoint} (h : t.Whole)
    (hf : ∀ q d, f q = .surrogate d → q = .surrogate d) : Whole (t.map f) := by
  intro c hc hi
  obtain ⟨x, y, he⟩ := hi
  obtain ⟨xw, y', ht, hxw, -⟩ := List.map_eq_append_iff.1 he.symm
  obtain ⟨x', w', hw, -, hmap⟩ := List.map_eq_append_iff.1 hxw
  have hsame : w' = (Utf8.ofChar c).map DiskName.escape := by
    rw [← hmap]
    symm
    apply map_eq_self
    intro q hq
    have hm : f q ∈ (Utf8.ofChar c).map DiskName.escape := hmap ▸ List.mem_map_of_mem hq
    obtain ⟨b, -, hb⟩ := List.mem_map.1 hm
    have hq' := hf q _ hb.symm
    exact hb.symm.trans hq'.symm
  exact h c hc ⟨x', y', by rw [ht, hw, hsame]⟩

theorem Whole.squeeze (h : t.Whole) (c : Char) : Whole (Text.squeeze (.char c) t) :=
  fun d hd hi => h d hd (infix_of_infix_squeeze (char_notMem_escapes c) hi)

end Text

namespace Include

variable {here : Address} {source mapped : Text}

theorem whole_plainSlashes (h : mapped.Whole) : (plainSlashes mapped).Whole := by
  refine Text.Whole.squeeze (h.map ?_) '/'
  intro q d hq
  split at hq
  · contradiction
  · exact hq

theorem whole_target (hh : here.Whole) (hs : Address.Whole (Path.ofText source).names) (hm : mapped.Whole) :
    Address.Whole (target here source mapped).names := by
  intro n hn
  rcases mem_target hn with hn | hn | hn
  · exact hh n hn
  · exact hs n hn
  · exact (whole_plainSlashes hm).mono (Path.infix_of_mem_names hn)

end Include

end ScriptMacros
