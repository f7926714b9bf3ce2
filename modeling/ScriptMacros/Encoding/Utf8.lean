namespace ScriptMacros.Utf8

inductive Reason where
  | startByte
  | continuation
  | truncated
deriving DecidableEq, Repr

def ofChar (c : Char) : List UInt8 :=
  let n := c.toNat
  let tail := fun (k : Nat) => UInt8.ofNat (0x80 + n / k % 64)
  if n < 0x80 then [UInt8.ofNat n]
  else if n < 0x800 then [UInt8.ofNat (0xc0 + n / 64), tail 1]
  else if n < 0x10000 then [UInt8.ofNat (0xe0 + n / 4096), tail 64, tail 1]
  else [UInt8.ofNat (0xf0 + n / 262144), tail 4096, tail 64, tail 1]

def encode (t : List Char) : List UInt8 := t.flatMap ofChar

def continueFrom (low high : UInt8) : (left done code : Nat) → List UInt8 → Except (Nat × Reason) Nat
  | 0, _, code, _ => .ok code
  | _ + 1, done, _, [] => .error (done, .truncated)
  | left + 1, done, code, b :: r =>
    if low ≤ b ∧ b ≤ high then continueFrom 0x80 0xbf left (done + 1) (code * 64 + b.toNat % 64) r
    else .error (done, .continuation)

/-- The character that starts with byte `b`, and the number of bytes after it. An error carries the number of
bytes that could still have begun a character. Overlong forms, surrogates and codes past the last are refused at
the second byte. -/
def charFrom (b : UInt8) (r : List UInt8) : Except (Nat × Reason) (Char × Nat) :=
  let take (low high : UInt8) (left code : Nat) :=
    (continueFrom low high left 1 code r).map fun n => (Char.ofNat n, left)
  if b < 0x80 then .ok (Char.ofNat b.toNat, 0)
  else if b < 0xc2 then .error (1, .startByte)
  else if b < 0xe0 then take 0x80 0xbf 1 (b.toNat - 0xc0)
  else if b < 0xf0 then
    take (if b = 0xe0 then 0xa0 else 0x80) (if b = 0xed then 0x9f else 0xbf) 2 (b.toNat - 0xe0)
  else if b < 0xf5 then
    take (if b = 0xf0 then 0x90 else 0x80) (if b = 0xf4 then 0x8f else 0xbf) 3 (b.toNat - 0xf0)
  else .error (1, .startByte)

theorem toNat_byte {n : Nat} (h : n < 256) : (UInt8.ofNat n).toNat = n := by
  simp [UInt8.toNat_ofNat', Nat.mod_eq_of_lt h]

theorem continueFrom_cons {low high : UInt8} {left done code m : Nat} {r : List UInt8} (hm : m < 64)
    (hl : low.toNat ≤ 0x80 + m) (hh : 0x80 + m ≤ high.toNat) :
    continueFrom low high (left + 1) done code (UInt8.ofNat (0x80 + m) :: r) =
      continueFrom 0x80 0xbf left (done + 1) (code * 64 + m) r := by
  have hb := toNat_byte (n := 0x80 + m) (by omega)
  have hm' : (0x80 + m) % 64 = m := by omega
  rw [continueFrom, if_pos (by simp only [UInt8.le_iff_toNat_le, hb]; exact ⟨hl, hh⟩), hb, hm']

theorem byte_lt {n : Nat} {b : UInt8} (h : n < 256) : UInt8.ofNat n < b ↔ n < b.toNat := by
  rw [UInt8.lt_iff_toNat_lt, toNat_byte h]

theorem byte_eq {n : Nat} {b : UInt8} (h : n < 256) : UInt8.ofNat n = b ↔ n = b.toNat := by
  rw [← UInt8.toNat_inj, toNat_byte h]

theorem charFrom_ofChar (c : Char) :
    ∃ b tail, ofChar c = b :: tail ∧ ∀ r, charFrom b (tail ++ r) = .ok (c, tail.length) := by
  have hc : c.toNat < 0xd800 ∨ 0xdfff < c.toNat ∧ c.toNat < 0x110000 := c.valid
  have hn : Char.ofNat c.toNat = c := Char.ofNat_toNat c
  rw [ofChar]
  generalize c.toNat = n at hc hn
  by_cases h1 : n < 0x80
  · refine ⟨UInt8.ofNat n, [], by simp [h1], fun r => ?_⟩
    simp [charFrom, byte_lt (show n < 256 by omega), toNat_byte (show n < 256 by omega), h1, hn]
  by_cases h2 : n < 0x800
  · refine ⟨UInt8.ofNat (0xc0 + n / 64), [UInt8.ofNat (0x80 + n % 64)], by simp [h1, h2], fun r => ?_⟩
    have hb : 0xc0 + n / 64 < 256 := by omega
    have k1 : ¬ 0xc0 + n / 64 < 0x80 := by omega
    have k2 : ¬ 0xc0 + n / 64 < 0xc2 := by omega
    have k3 : 0xc0 + n / 64 < 0xe0 := by omega
    have hv : (0xc0 + n / 64 - 0xc0) * 64 + n % 64 = n := by omega
    simp only [charFrom, byte_lt hb, UInt8.reduceToNat, toNat_byte hb, List.cons_append, List.nil_append]
    rw [if_neg k1, if_neg k2, if_pos k3, continueFrom_cons (by omega) (by simp) (by simp; omega), hv]
    simp [continueFrom, Except.map, hn]
  by_cases h3 : n < 0x10000
  · refine ⟨UInt8.ofNat (0xe0 + n / 4096), [UInt8.ofNat (0x80 + n / 64 % 64), UInt8.ofNat (0x80 + n % 64)],
      by simp [h1, h2, h3], fun r => ?_⟩
    have hb : 0xe0 + n / 4096 < 256 := by omega
    have k1 : ¬ 0xe0 + n / 4096 < 0x80 := by omega
    have k2 : ¬ 0xe0 + n / 4096 < 0xc2 := by omega
    have k3 : ¬ 0xe0 + n / 4096 < 0xe0 := by omega
    have k4 : 0xe0 + n / 4096 < 0xf0 := by omega
    have hv : ((0xe0 + n / 4096 - 0xe0) * 64 + n / 64 % 64) * 64 + n % 64 = n := by omega
    simp only [charFrom, byte_lt hb, byte_eq hb, UInt8.reduceToNat, toNat_byte hb, List.cons_append, List.nil_append]
    rw [if_neg k1, if_neg k2, if_neg k3, if_pos k4,
      continueFrom_cons (by omega) (by split <;> simp_all; omega) (by split <;> simp_all; omega; omega),
      continueFrom_cons (by omega) (by simp) (by simp; omega), hv]
    simp [continueFrom, Except.map, hn]
  · refine ⟨UInt8.ofNat (0xf0 + n / 262144), [UInt8.ofNat (0x80 + n / 4096 % 64),
      UInt8.ofNat (0x80 + n / 64 % 64), UInt8.ofNat (0x80 + n % 64)], by simp [h1, h2, h3], fun r => ?_⟩
    have hb : 0xf0 + n / 262144 < 256 := by omega
    have k1 : ¬ 0xf0 + n / 262144 < 0x80 := by omega
    have k2 : ¬ 0xf0 + n / 262144 < 0xc2 := by omega
    have k3 : ¬ 0xf0 + n / 262144 < 0xe0 := by omega
    have k4 : ¬ 0xf0 + n / 262144 < 0xf0 := by omega
    have k5 : 0xf0 + n / 262144 < 0xf5 := by omega
    have hv : (((0xf0 + n / 262144 - 0xf0) * 64 + n / 4096 % 64) * 64 + n / 64 % 64) * 64 + n % 64 = n := by omega
    simp only [charFrom, byte_lt hb, byte_eq hb, UInt8.reduceToNat, toNat_byte hb, List.cons_append, List.nil_append]
    rw [if_neg k1, if_neg k2, if_neg k3, if_neg k4, if_pos k5,
      continueFrom_cons (by omega) (by split <;> simp_all; omega) (by split <;> simp_all; omega; omega),
      continueFrom_cons (by omega) (by simp) (by simp; omega),
      continueFrom_cons (by omega) (by simp) (by simp; omega), hv]
    simp [continueFrom, Except.map, hn]

structure Fault where
  start : Nat
  length : Nat
  reason : Reason
deriving DecidableEq, Repr

def decodeFrom : (i skipped : Nat) → List UInt8 → Except Fault (List Char)
  | _, _, [] => .ok []
  | i, n + 1, _ :: r => decodeFrom (i + 1) n r
  | i, 0, b :: r =>
    match charFrom b r with
    | .error (length, reason) => .error ⟨i, length, reason⟩
    | .ok (c, n) => (decodeFrom (i + 1) n r).map (c :: ·)

def decode (bytes : List UInt8) : Except Fault (List Char) := decodeFrom 0 0 bytes

end ScriptMacros.Utf8
