import ScriptMacros.Encoding

/-!
Names on the disk are bytes. A written name stands for its bytes in UTF-8, and a surrogate from U+DC80 to U+DCFF
for the byte that its code ends with, so a character beyond ASCII can also be written byte by byte. A name on the
disk therefore has several spellings, but not more than `spellingBound` (`mem_spellings`, `length_spellings_le`).
-/

namespace ScriptMacros

abbrev DiskName := List UInt8

namespace DiskName

def ofPoint? : CodePoint → Option DiskName
  | .char c => some (Utf8.ofChar c)
  | .surrogate d => if 0x480 ≤ d.val ∧ d.val < 0x500 then some [UInt8.ofNat (d.val - 0x400)] else none

def ofText? : Text → Option DiskName
  | [] => some []
  | p :: t =>
    match ofPoint? p, ofText? t with
    | some b, some r => some (b ++ r)
    | _, _ => none

def ofText (t : Text) : Except Encoding.EncodeFault DiskName :=
  match ofText? t with
  | some k => .ok k
  | none =>
    let start := (t.findIdx? fun p => (ofPoint? p).isNone).getD 0
    .error ⟨.utf8, start, (t.drop start).takeWhile CodePoint.isSurrogate, Encoding.noSurrogates⟩

def escape (b : UInt8) : CodePoint := .surrogate ⟨0x400 + b.toNat, by have := b.toNat_lt; omega⟩

def writtenFrom : (skipped : Nat) → DiskName → Text
  | _, [] => []
  | n + 1, _ :: r => writtenFrom n r
  | 0, b :: r =>
    match Utf8.charFrom b r with
    | .ok (c, n) => .char c :: writtenFrom n r
    | .error _ => escape b :: writtenFrom 0 r

def written (k : DiskName) : Text := writtenFrom 0 k

def spellingsFrom : (skipped : Nat) → DiskName → List Text
  | _, [] => [[]]
  | n + 1, _ :: r => spellingsFrom n r
  | 0, b :: r =>
    let byByte := if b < 0x80 then [] else (spellingsFrom 0 r).map (escape b :: ·)
    match Utf8.charFrom b r with
    | .ok (c, n) => byByte ++ (spellingsFrom n r).map (.char c :: ·)
    | .error _ => byByte

def spellings (k : DiskName) : List Text := spellingsFrom 0 k

def spellingBound : DiskName → Nat
  | [] => 1
  | _ :: r => 2 * spellingBound r

theorem length_spellingsFrom_le (n : Nat) (k : DiskName) : (spellingsFrom n k).length ≤ spellingBound k := by
  induction k generalizing n with
  | nil => simp [spellingsFrom, spellingBound]
  | cons b r ih =>
    have h0 := ih 0
    cases n with
    | succ n =>
      have := ih n
      simp only [spellingsFrom, spellingBound]
      omega
    | zero =>
      simp only [spellingsFrom, spellingBound]
      split
      · next c m hc =>
        have := ih m
        split <;> simp <;> omega
      · split
        · simp
        · simp only [List.length_map]
          omega

theorem length_spellings_le (k : DiskName) : (spellings k).length ≤ spellingBound k := length_spellingsFrom_le 0 k

theorem spellingsFrom_append (s r : DiskName) : spellingsFrom s.length (s ++ r) = spellingsFrom 0 r := by
  induction s with
  | nil => rfl
  | cons b s ih => simpa [spellingsFrom] using ih

theorem eq_escape_of_ofPoint? {d : Fin 0x800} {k : DiskName} (h : ofPoint? (.surrogate d) = some k) :
    ∃ b, k = [b] ∧ ¬ b < 0x80 ∧ escape b = .surrogate d := by
  unfold ofPoint? at h
  split at h
  · next p c hp => exact absurd hp (by simp)
  · next p e hp =>
    obtain rfl : d = e := by simpa using hp
    split at h
    · next hd =>
      have hb := Utf8.toNat_byte (n := d.val - 0x400) (by omega)
      refine ⟨_, by simpa using h.symm, ?_, ?_⟩
      · rw [Utf8.byte_lt (by omega)]
        simp
        omega
      · simp only [escape, hb, CodePoint.surrogate.injEq]
        apply Fin.ext
        simp
        omega
    · simp at h

theorem mem_spellings {t : Text} {k : DiskName} (h : ofText? t = some k) : t ∈ spellings k := by
  induction t generalizing k with
  | nil =>
    obtain rfl : k = [] := by simpa [ofText?] using h.symm
    simp [spellings, spellingsFrom]
  | cons p t ih =>
    rw [ofText?] at h
    split at h
    · next b r hp ht =>
      obtain rfl : b ++ r = k := by simpa using h
      have hr := ih ht
      cases p with
      | char c =>
        obtain ⟨a, tail, hc, hread⟩ := Utf8.charFrom_ofChar c
        obtain rfl : Utf8.ofChar c = b := by simpa [ofPoint?] using hp
        rw [hc, List.cons_append, spellings, spellingsFrom, hread]
        simp only [spellingsFrom_append]
        exact List.mem_append_right _ (List.mem_map.2 ⟨t, hr, rfl⟩)
      | surrogate d =>
        obtain ⟨a, rfl, ha, hd⟩ := eq_escape_of_ofPoint? hp
        rw [List.cons_append, List.nil_append, spellings, spellingsFrom]
        have hm : CodePoint.surrogate d :: t ∈
            (if a < 0x80 then [] else (spellingsFrom 0 r).map (escape a :: ·)) := by
          rw [if_neg ha, ← hd]
          exact List.mem_map.2 ⟨t, hr, rfl⟩
        split
        · exact List.mem_append_left _ hm
        · exact hm
    · simp at h

end DiskName

abbrev Place := List DiskName

namespace Place

def spellings : Place → List (List Text)
  | [] => [[]]
  | k :: p => k.spellings.flatMap fun n => (spellings p).map (n :: ·)

def spellingBound : Place → Nat
  | [] => 1
  | k :: p => k.spellingBound * spellingBound p

theorem length_spellings_le (p : Place) : (spellings p).length ≤ spellingBound p := by
  induction p with
  | nil => simp [spellings, spellingBound]
  | cons k p ih =>
    have h : ∀ l : List Text,
        (l.flatMap fun n => (spellings p).map (n :: ·)).length = l.length * (spellings p).length := by
      intro l
      induction l with
      | nil => simp
      | cons n l ihl => simp [ihl, Nat.succ_mul, Nat.add_comm]
    rw [spellings, spellingBound, h]
    exact Nat.mul_le_mul k.length_spellings_le ih

end Place

end ScriptMacros
