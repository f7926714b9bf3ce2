import ScriptMacros.Proofs.Result
import ScriptMacros.Proofs.Splitting
import ScriptMacros.Run.Basic

namespace ScriptMacros

namespace Utf8

theorem decodeFrom_skipped (i : Nat) (tail r : List UInt8) :
    decodeFrom i tail.length (tail ++ r) = decodeFrom (i + tail.length) 0 r := by
  induction tail generalizing i with
  | nil => rfl
  | cons b tail ih =>
    rw [List.cons_append, List.length_cons, decodeFrom, ih, Nat.add_assoc, Nat.add_comm 1]

theorem decodeFrom_encode (i : Nat) (t : List Char) : decodeFrom i 0 (encode t) = .ok t := by
  induction t generalizing i with
  | nil => rfl
  | cons c t ih =>
    obtain ⟨b, tail, hbytes, hread⟩ := charFrom_ofChar c
    rw [encode, List.flatMap_cons, hbytes, List.cons_append, ← encode, decodeFrom, hread]
    dsimp only
    rw [decodeFrom_skipped, ih]
    rfl

variable {low high b : UInt8} {left done code n : Nat} {r bytes : List UInt8} {t : List Char} {c : Char}

theorem continueFrom_eq_ok (hlow : 0x80 ≤ low.toNat) (hhigh : high.toNat ≤ 0xbf)
    (h : continueFrom low high (left + 1) done code r = .ok n) :
    ∃ m r', r = UInt8.ofNat (0x80 + m) :: r' ∧ m < 64 ∧ low.toNat ≤ 0x80 + m ∧ 0x80 + m ≤ high.toNat ∧
      continueFrom 0x80 0xbf left (done + 1) (code * 64 + m) r' = .ok n := by
  cases r with
  | nil => contradiction
  | cons b r =>
    rw [continueFrom] at h
    split at h
    · next hb =>
      rw [UInt8.le_iff_toNat_le, UInt8.le_iff_toNat_le] at hb
      have hm : 0x80 + b.toNat % 64 = b.toNat := by omega
      refine ⟨b.toNat % 64, r, ?_, Nat.mod_lt _ (by decide), by omega, by omega, h⟩
      rw [hm, UInt8.ofNat_toNat]
    · contradiction

theorem toNat_ofNat {n : Nat} (h : n < 0xd800 ∨ 0xdfff < n ∧ n < 0x110000) : (Char.ofNat n).toNat = n := by
  rw [Char.ofNat, dif_pos h]
  rfl

section

variable {a m m' m'' : Nat}

theorem ofChar_two (ha : 2 ≤ a) (ha' : a < 32) (hm : m < 64) :
    ofChar (Char.ofNat (a * 64 + m)) = [UInt8.ofNat (0xc0 + a), UInt8.ofNat (0x80 + m)] := by
  rw [ofChar, toNat_ofNat (by omega)]
  have h1 : ¬a * 64 + m < 0x80 := by omega
  have h2 : a * 64 + m < 0x800 := by omega
  have hlead : (a * 64 + m) / 64 = a := by omega
  have hm : (a * 64 + m) / 1 % 64 = m := by omega
  simp only [if_neg h1, if_pos h2, hlead, hm]

theorem ofChar_three (ha : a < 16) (hlong : a = 0 → 32 ≤ m) (hvalid : a = 13 → m < 32) (hm : m < 64) (hm' : m' < 64) :
    ofChar (Char.ofNat ((a * 64 + m) * 64 + m')) =
      [UInt8.ofNat (0xe0 + a), UInt8.ofNat (0x80 + m), UInt8.ofNat (0x80 + m')] := by
  rw [ofChar, toNat_ofNat (by omega)]
  have h1 : ¬(a * 64 + m) * 64 + m' < 0x80 := by omega
  have h2 : ¬(a * 64 + m) * 64 + m' < 0x800 := by omega
  have h3 : (a * 64 + m) * 64 + m' < 0x10000 := by omega
  have hlead : ((a * 64 + m) * 64 + m') / 4096 = a := by omega
  have hm : ((a * 64 + m) * 64 + m') / 64 % 64 = m := by omega
  have hm' : ((a * 64 + m) * 64 + m') / 1 % 64 = m' := by omega
  simp only [if_neg h1, if_neg h2, if_pos h3, hlead, hm, hm']

theorem ofChar_four (ha : a < 5) (hlong : a = 0 → 16 ≤ m) (hvalid : a = 4 → m < 16) (hm : m < 64) (hm' : m' < 64)
    (hm'' : m'' < 64) : ofChar (Char.ofNat (((a * 64 + m) * 64 + m') * 64 + m'')) =
      [UInt8.ofNat (0xf0 + a), UInt8.ofNat (0x80 + m), UInt8.ofNat (0x80 + m'), UInt8.ofNat (0x80 + m'')] := by
  rw [ofChar, toNat_ofNat (by omega)]
  have h1 : ¬((a * 64 + m) * 64 + m') * 64 + m'' < 0x80 := by omega
  have h2 : ¬((a * 64 + m) * 64 + m') * 64 + m'' < 0x800 := by omega
  have h3 : ¬((a * 64 + m) * 64 + m') * 64 + m'' < 0x10000 := by omega
  have hlead : (((a * 64 + m) * 64 + m') * 64 + m'') / 262144 = a := by omega
  have hm : (((a * 64 + m) * 64 + m') * 64 + m'') / 4096 % 64 = m := by omega
  have hm' : (((a * 64 + m) * 64 + m') * 64 + m'') / 64 % 64 = m' := by omega
  have hm'' : (((a * 64 + m) * 64 + m') * 64 + m'') / 1 % 64 = m'' := by omega
  simp only [if_neg h1, if_neg h2, if_neg h3, hlead, hm, hm', hm'']

end

theorem ofChar_of_charFrom (h : charFrom b r = .ok (c, n)) :
    ∃ tail rest, r = tail ++ rest ∧ tail.length = n ∧ ofChar c = b :: tail := by
  -- In each width the first byte is its mark and the upper bits of the code.
  have hlead : ∀ k, k ≤ b.toNat → UInt8.ofNat (k + (b.toNat - k)) = b := by
    intro k hk
    rw [Nat.add_sub_cancel' hk, UInt8.ofNat_toNat]
  rw [charFrom] at h
  simp only [UInt8.lt_iff_toNat_lt, UInt8.reduceToNat] at h
  split at h
  · next h1 =>
    cases h
    refine ⟨[], r, rfl, rfl, ?_⟩
    rw [ofChar, toNat_ofNat (by omega)]
    simp only [if_pos h1, UInt8.ofNat_toNat]
  split at h
  · contradiction
  split at h
  · obtain ⟨k, hk, hc⟩ := exists_of_map_eq_ok h
    cases hc
    obtain ⟨m, rest, rfl, hm, -, -, hk⟩ := continueFrom_eq_ok (by decide) (by decide) hk
    cases hk
    refine ⟨[UInt8.ofNat (0x80 + m)], rest, rfl, rfl, ?_⟩
    rw [ofChar_two (by omega) (by omega) hm, hlead _ (by omega)]
  split at h
  · obtain ⟨k, hk, hc⟩ := exists_of_map_eq_ok h
    cases hc
    obtain ⟨m, rest, rfl, hm, hlow, hhigh, hk⟩ := continueFrom_eq_ok (by split <;> decide) (by split <;> decide) hk
    obtain ⟨m', rest, rfl, hm', -, -, hk⟩ := continueFrom_eq_ok (by decide) (by decide) hk
    cases hk
    refine ⟨[UInt8.ofNat (0x80 + m), UInt8.ofNat (0x80 + m')], rest, rfl, rfl, ?_⟩
    have hlong : b.toNat - 0xe0 = 0 → 32 ≤ m := by
      intro hb
      rw [if_pos (UInt8.toNat_inj.1 (show b.toNat = 0xe0 by omega))] at hlow
      exact Nat.le_of_add_le_add_left hlow
    have hvalid : b.toNat - 0xe0 = 13 → m < 32 := by
      intro hb
      rw [if_pos (UInt8.toNat_inj.1 (show b.toNat = 0xed by omega))] at hhigh
      exact Nat.lt_of_add_lt_add_left (Nat.lt_succ_of_le hhigh)
    rw [ofChar_three (by omega) hlong hvalid hm hm', hlead _ (by omega)]
  split at h
  · obtain ⟨k, hk, hc⟩ := exists_of_map_eq_ok h
    cases hc
    obtain ⟨m, rest, rfl, hm, hlow, hhigh, hk⟩ := continueFrom_eq_ok (by split <;> decide) (by split <;> decide) hk
    obtain ⟨m', rest, rfl, hm', -, -, hk⟩ := continueFrom_eq_ok (by decide) (by decide) hk
    obtain ⟨m'', rest, rfl, hm'', -, -, hk⟩ := continueFrom_eq_ok (by decide) (by decide) hk
    cases hk
    refine ⟨[UInt8.ofNat (0x80 + m), UInt8.ofNat (0x80 + m'), UInt8.ofNat (0x80 + m'')], rest, rfl, rfl, ?_⟩
    have hlong : b.toNat - 0xf0 = 0 → 16 ≤ m := by
      intro hb
      rw [if_pos (UInt8.toNat_inj.1 (show b.toNat = 0xf0 by omega))] at hlow
      exact Nat.le_of_add_le_add_left hlow
    have hvalid : b.toNat - 0xf0 = 4 → m < 16 := by
      intro hb
      rw [if_pos (UInt8.toNat_inj.1 (show b.toNat = 0xf4 by omega))] at hhigh
      exact Nat.lt_of_add_lt_add_left (Nat.lt_succ_of_le hhigh)
    rw [ofChar_four (by omega) hlong hvalid hm hm' hm'', hlead _ (by omega)]
  · contradiction

theorem encode_of_decodeFrom {i : Nat} (h : decodeFrom i 0 bytes = .ok t) : encode t = bytes := by
  induction hl : bytes.length using Nat.strong_induction_on generalizing i bytes t with
  | _ l ih =>
    subst hl
    cases bytes with
    | nil =>
      cases h
      rfl
    | cons b r =>
      rw [decodeFrom] at h
      split at h
      · contradiction
      · next c n hchar =>
        obtain ⟨tail, rest, rfl, rfl, hc⟩ := ofChar_of_charFrom hchar
        rw [decodeFrom_skipped] at h
        obtain ⟨t, hrest, rfl⟩ := exists_of_map_eq_ok h
        have hlt : rest.length < (b :: (tail ++ rest)).length := by
          rw [List.length_cons, List.length_append]
          omega
        rw [encode, List.flatMap_cons, hc, ← encode, ih rest.length hlt hrest rfl]
        rfl

end Utf8

namespace Encoding

variable {e : Encoding} {bytes : List UInt8} {t : Text} {c : CodePoint}

def Has : Encoding → CodePoint → Prop
  | utf8, c | utf8Marked, c => c.isSurrogate = false
  | latin1, c => c.toNat < 256
  | ascii, c => c.toNat < 128

theorem isSurrogate_of_lt (h : c.toNat < 0xd800) : c.isSurrogate = false := by
  cases c with
  | char c => rfl
  | surrogate d => exact absurd h (Nat.not_lt.2 (Nat.le_add_right 0xd800 d))

theorem has_of_lt (h : c.toNat < 128) (e : Encoding) : e.Has c := by
  cases e with
  | utf8 | utf8Marked => exact isSurrogate_of_lt (Nat.lt_trans h (by decide))
  | latin1 => exact Nat.lt_trans h (by decide)
  | ascii => exact h

theorem toNat_ofNat_byte (b : UInt8) : (Char.ofNat b.toNat).toNat = b.toNat := by
  have hb := b.toNat_lt
  exact Utf8.toNat_ofNat (by omega)

theorem ofNat_byte (h : c.toNat < 256) : CodePoint.char (Char.ofNat (UInt8.ofNat c.toNat).toNat) = c := by
  cases c with
  | char c => rw [Utf8.toNat_byte h, CodePoint.toNat, Char.ofNat_toNat]
  | surrogate d => exact absurd (isSurrogate_of_lt (Nat.lt_trans h (by decide))) Bool.noConfusion

theorem exists_characters_iff : (∃ cs : List Char, t = cs.map .char) ↔ ∀ c ∈ t, c.isSurrogate = false := by
  constructor
  · rintro ⟨cs, rfl⟩ c hc
    obtain ⟨d, -, rfl⟩ := List.mem_map.1 hc
    rfl
  · intro h
    induction t with
    | nil => exact ⟨[], rfl⟩
    | cons c t ih =>
      obtain ⟨cs, rfl⟩ := ih fun d hd => h d (List.mem_cons_of_mem c hd)
      cases c with
      | char c => exact ⟨c :: cs, rfl⟩
      | surrogate d => exact absurd (h _ List.mem_cons_self) Bool.noConfusion

theorem surrogateFault?_eq_none_iff : surrogateFault? t = none ↔ ∀ c ∈ t, c.isSurrogate = false := by
  rw [surrogateFault?, Option.map_eq_none_iff, List.findIdx?_eq_none_iff]

theorem filterMap_character? (cs : List Char) : (cs.map .char).filterMap CodePoint.character? = cs := by
  rw [List.filterMap_map]
  exact List.filterMap_some

theorem decodeUtf8_eq_ok_iff :
    decodeUtf8 bytes = .ok t ↔ ∃ cs : List Char, t = cs.map .char ∧ Utf8.encode cs = bytes := by
  constructor
  · intro h
    rw [decodeUtf8] at h
    split at h
    · next cs hbytes =>
      cases h
      exact ⟨cs, rfl, Utf8.encode_of_decodeFrom hbytes⟩
    · contradiction
  · rintro ⟨cs, rfl, rfl⟩
    rw [decodeUtf8, Utf8.decode, Utf8.decodeFrom_encode]

theorem encodeUtf8_eq_ok_iff :
    encodeUtf8 t = .ok bytes ↔ ∃ cs : List Char, t = cs.map .char ∧ Utf8.encode cs = bytes := by
  constructor
  · intro h
    rw [encodeUtf8] at h
    split at h
    · contradiction
    · next hnone =>
      cases h
      obtain ⟨cs, rfl⟩ := exists_characters_iff.2 (surrogateFault?_eq_none_iff.1 hnone)
      exact ⟨cs, rfl, by rw [filterMap_character?]⟩
  · rintro ⟨cs, rfl, rfl⟩
    rw [encodeUtf8, surrogateFault?_eq_none_iff.2 (exists_characters_iff.1 ⟨cs, rfl⟩)]
    dsimp only
    rw [filterMap_character?]

theorem decode_utf8_eq_ok_iff :
    utf8.decode bytes = .ok t ↔ ∃ cs : List Char, t = cs.map .char ∧ Utf8.encode cs = bytes := decodeUtf8_eq_ok_iff

theorem has_of_decodeUtf8 (h : decodeUtf8 bytes = .ok t) (hc : c ∈ t) : c.isSurrogate = false := by
  obtain ⟨cs, rfl, -⟩ := decodeUtf8_eq_ok_iff.1 h
  exact exists_characters_iff.1 ⟨cs, rfl⟩ c hc

theorem has_of_decode (h : e.decode bytes = .ok t) (hc : c ∈ t) : e.Has c := by
  cases e with
  | utf8 => exact has_of_decodeUtf8 h hc
  | utf8Marked =>
    rw [decode] at h
    split at h
    · cases h
      contradiction
    · exact has_of_decodeUtf8 h hc
  | latin1 =>
    cases h
    obtain ⟨b, -, rfl⟩ := List.mem_map.1 hc
    rw [Has, CodePoint.toNat, toNat_ofNat_byte]
    exact b.toNat_lt
  | ascii =>
    rw [decode] at h
    split at h
    · contradiction
    · next hnone =>
      cases h
      obtain ⟨b, hb, rfl⟩ := List.mem_map.1 hc
      rw [Has, CodePoint.toNat, toNat_ofNat_byte]
      rw [List.findIdx?_eq_none_iff] at hnone
      exact UInt8.lt_iff_toNat_lt.1 (UInt8.not_le.1 (of_decide_eq_false (hnone b hb)))

theorem encodeBelow_eq_ok (e : Encoding) {bound : Nat} (h : ∀ c ∈ t, c.toNat < bound) :
    encodeBelow e bound t = .ok (t.map fun c => UInt8.ofNat c.toNat) := by
  have hnone : t.findIdx? (bound ≤ ·.toNat) = none := by
    rw [List.findIdx?_eq_none_iff]
    intro c hc
    exact decide_eq_false (Nat.not_le.2 (h c hc))
  rw [encodeBelow, hnone]

theorem exists_encodeUtf8 (h : ∀ c ∈ t, c.isSurrogate = false) : ∃ bytes, encodeUtf8 t = .ok bytes := by
  obtain ⟨cs, rfl⟩ := exists_characters_iff.2 h
  exact ⟨_, encodeUtf8_eq_ok_iff.2 ⟨cs, rfl, rfl⟩⟩

theorem exists_encode (h : ∀ c ∈ t, e.Has c) : ∃ bytes, e.encode t = .ok bytes := by
  cases e with
  | utf8 => exact exists_encodeUtf8 h
  | utf8Marked =>
    obtain ⟨bytes, hbytes⟩ := exists_encodeUtf8 h
    exact ⟨mark ++ bytes, by rw [encode, hbytes]; rfl⟩
  | latin1 => exact ⟨_, encodeBelow_eq_ok latin1 h⟩
  | ascii => exact ⟨_, encodeBelow_eq_ok ascii h⟩

theorem of_encodeBelow {bound : Nat} (h : encodeBelow e bound t = .ok bytes) :
    (∀ c ∈ t, c.toNat < bound) ∧ bytes = t.map fun c => UInt8.ofNat c.toNat := by
  rw [encodeBelow] at h
  split at h
  · contradiction
  · next hnone =>
    cases h
    rw [List.findIdx?_eq_none_iff] at hnone
    exact ⟨fun c hc => Nat.not_le.1 (of_decide_eq_false (hnone c hc)), rfl⟩

theorem map_ofNat_bytes (h : ∀ c ∈ t, c.toNat < 256) :
    (t.map fun c => UInt8.ofNat c.toNat).map (fun b => CodePoint.char (Char.ofNat b.toNat)) = t := by
  rw [List.map_map]
  exact map_eq_self fun c hc => ofNat_byte (h c hc)

theorem decode_encode (h : e.encode t = .ok bytes) : e.decode bytes = .ok t := by
  cases e with
  | utf8 => exact decodeUtf8_eq_ok_iff.2 (encodeUtf8_eq_ok_iff.1 h)
  | utf8Marked =>
    obtain ⟨bytes, hbytes, rfl⟩ := exists_of_map_eq_ok h
    have hlong : ¬((mark ++ bytes).length < 3 ∧ (mark ++ bytes).isPrefixOf mark = true) := by
      rintro ⟨hlt, -⟩
      rw [List.length_append] at hlt
      exact Nat.not_lt.2 (Nat.le_add_right 3 _) hlt
    have hmark : mark.isPrefixOf (mark ++ bytes) = true := List.isPrefixOf_iff_prefix.2 (List.prefix_append _ _)
    rw [decode, if_neg hlong, if_pos hmark]
    exact decodeUtf8_eq_ok_iff.2 (encodeUtf8_eq_ok_iff.1 hbytes)
  | latin1 =>
    obtain ⟨hbound, rfl⟩ := of_encodeBelow h
    rw [decode, map_ofNat_bytes hbound]
  | ascii =>
    obtain ⟨hbound, rfl⟩ := of_encodeBelow h
    have hbytes : (t.map fun c => UInt8.ofNat c.toNat).findIdx? (0x80 ≤ ·) = none := by
      rw [List.findIdx?_eq_none_iff]
      intro b hb
      obtain ⟨c, hc, rfl⟩ := List.mem_map.1 hb
      have hlt := hbound c hc
      rw [decide_eq_false_iff_not, UInt8.not_le, Utf8.byte_lt (by omega)]
      exact hlt
    rw [decode, hbytes]
    dsimp only
    rw [map_ofNat_bytes fun c hc => Nat.lt_trans (hbound c hc) (by decide)]

theorem unifyLineEnds_of_notMem (h : .char '\r' ∉ t) : unifyLineEnds t = t := by
  induction t with
  | nil => rfl
  | cons c t ih =>
    rw [List.mem_cons, not_or] at h
    rw [unifyLineEnds, if_neg (Ne.symm h.1), ih h.2]

theorem return_notMem_unifyLineEnds (t : Text) : .char '\r' ∉ unifyLineEnds t := by
  induction t with
  | nil => simp [unifyLineEnds]
  | cons c t ih =>
    rw [unifyLineEnds]
    split
    · split
      · exact ih
      · exact List.not_mem_cons_of_ne_of_not_mem (by decide) ih
    · next hc => exact List.not_mem_cons_of_ne_of_not_mem (Ne.symm hc) ih

theorem mem_unifyLineEnds (h : c ∈ unifyLineEnds t) : c ∈ t ∨ c = '\n' := by
  induction t with
  | nil => contradiction
  | cons d t ih =>
    rw [unifyLineEnds] at h
    split at h
    · split at h
      · exact (ih h).imp_left (List.mem_cons_of_mem d)
      · rcases List.mem_cons.1 h with rfl | h
        · exact Or.inr rfl
        · exact (ih h).imp_left (List.mem_cons_of_mem d)
    · rcases List.mem_cons.1 h with rfl | h
      · exact Or.inl List.mem_cons_self
      · exact (ih h).imp_left (List.mem_cons_of_mem d)

end Encoding

theorem Codecs.soundName_of_find {codecs : Codecs} {name : Text} {c : Codec} (h : codecs.find name = .ok c) :
    ∃ plain, Encoding.soundName name = .ok plain := by
  rw [find] at h
  split at h
  · contradiction
  · next plain hplain => exact ⟨plain, hplain⟩

theorem Codecs.find_four {name : Text} {plain : Text} {e : Encoding} (hname : Encoding.soundName name = .ok plain)
    (he : Encoding.ofName? plain = some e) : Codecs.four.find name = .ok e.codec := by
  rw [find, hname]
  dsimp only
  rw [four, he]
  rfl

theorem Codecs.exists_of_find_four {name : Text} {c : Codec} (h : Codecs.four.find name = .ok c) :
    ∃ e : Encoding, c = e.codec := by
  rw [find] at h
  split at h
  · contradiction
  · next plain _ =>
    rw [mapError_eq_ok_iff, four] at h
    split at h
    · contradiction
    · next e _ =>
      cases h
      exact ⟨e, rfl⟩

namespace Project

variable {p : Project} {path : Path} {bytes : List UInt8} {t : Text}

theorem decode_eq_ok (h : p.decode bytes = .ok t) :
    ∃ c v, p.codec = .ok c ∧ c.decode bytes = .ok v ∧ t = Encoding.unifyLineEnds v := by
  rw [decode] at h
  split at h
  · contradiction
  · next c hc =>
    split at h
    · next v hv =>
      cases h
      exact ⟨c, v, hc, hv, rfl⟩
    · contradiction

theorem return_notMem_of_decode (h : p.decode bytes = .ok t) : .char '\r' ∉ t := by
  obtain ⟨c, v, -, -, rfl⟩ := decode_eq_ok h
  exact Encoding.return_notMem_unifyLineEnds v

theorem readText_eq_ok_iff :
    p.readText path = .ok t ↔ ∃ bytes, p.tree.read path = .ok bytes ∧ p.decode bytes = .ok t := by
  constructor
  · intro h
    rw [readText] at h
    split at h
    · contradiction
    · split at h
      · next bytes hread => exact ⟨bytes, hread, h⟩
      · contradiction
  · rintro ⟨bytes, hread, hd⟩
    obtain ⟨c, v, hc, -, -⟩ := decode_eq_ok hd
    obtain ⟨plain, hplain⟩ := Codecs.soundName_of_find hc
    rw [readText, hplain, hread]
    exact hd

end Project

end ScriptMacros
