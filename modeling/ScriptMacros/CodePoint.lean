/-!
Code points. A surrogate is a code that only two at a time stand for a character: some encodings and the escapes of a
document can write one, and the bytes of a name on the disk that are no text are read as such.
-/

namespace ScriptMacros

/-- A code point: a character, or a surrogate by its distance from the first one. -/
inductive CodePoint where
  | char (c : Char)
  | surrogate (distance : Fin 0x800)
deriving DecidableEq, Repr

namespace CodePoint

instance : Coe Char CodePoint := ⟨char⟩

def toNat : CodePoint → Nat
  | char c => c.toNat
  | surrogate d => 0xd800 + d

def ofNat (n : Nat) : CodePoint :=
  if h : 0xd800 ≤ n ∧ n < 0xe000 then surrogate ⟨n - 0xd800, by omega⟩ else char (Char.ofNat n)

def isSurrogate : CodePoint → Bool
  | char _ => false
  | surrogate _ => true

def character? : CodePoint → Option Char
  | char c => some c
  | surrogate _ => none

def isAlpha : CodePoint → Bool
  | char c => c.isAlpha
  | surrogate _ => false

def isDigit : CodePoint → Bool
  | char c => c.isDigit
  | surrogate _ => false

def isAlphanum (c : CodePoint) : Bool := c.isAlpha || c.isDigit

def toLower : CodePoint → CodePoint
  | char c => char c.toLower
  | surrogate d => surrogate d

@[simp] theorem toNat_char (c : Char) : (char c).toNat = c.toNat := rfl

@[simp] theorem isAlpha_char (c : Char) : (char c).isAlpha = c.isAlpha := rfl

@[simp] theorem isDigit_char (c : Char) : (char c).isDigit = c.isDigit := rfl

theorem bounds_of_isAlpha {c : CodePoint} (h : c.isAlpha = true) :
    (65 ≤ c.toNat ∧ c.toNat ≤ 90) ∨ (97 ≤ c.toNat ∧ c.toNat ≤ 122) := by
  cases c with
  | surrogate => cases h
  | char c =>
    refine ((Bool.or_eq_true _ _).mp h).imp (fun hu => ?_) (fun hl => ?_)
    · exact of_decide_eq_true (p := 65 ≤ c.val ∧ c.val ≤ 90) hu
    · obtain ⟨hfirst, hlast⟩ := (Bool.and_eq_true _ _).mp hl
      exact ⟨of_decide_eq_true hfirst, of_decide_eq_true hlast⟩

theorem bounds_of_isDigit {c : CodePoint} (h : c.isDigit = true) : 48 ≤ c.toNat ∧ c.toNat ≤ 57 := by
  cases c with
  | surrogate => cases h
  | char c => exact Char.isDigit_iff_toNat.mp h

end CodePoint

end ScriptMacros

@[simp] def String.toText (s : String) : List ScriptMacros.CodePoint := s.toList.map .char
