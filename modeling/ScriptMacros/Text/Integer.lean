import ScriptMacros.Text.Blank
import ScriptMacros.Character.Digit

namespace ScriptMacros.Text

/-- The ASCII form of a character in a number; what has none becomes a question mark. -/
def asciiForm (c : CodePoint) : CodePoint :=
  if c.toNat < 127 then c
  else if isBlank c then ' '
  else
    match Character.digit? c with
    | some d => .char (Char.ofNat (48 + d))
    | none => '?'

def isAsciiBlank (c : CodePoint) : Bool := c = ' ' ∨ (9 ≤ c.toNat ∧ c.toNat ≤ 13)

def digitsFrom? : (due : Bool) → Text → Option (List Nat)
  | due, [] => if due then none else some []
  | due, c :: t =>
    if c.isDigit then (digitsFrom? false t).map ((c.toNat - 48) :: ·)
    else if c = '_' ∧ due = false then digitsFrom? true t
    else none

def ofDigits (ds : List Nat) : Nat := ds.foldl (fun n d => 10 * n + d) 0

def digitLimit : Nat := 4300

def natural? (t : Text) : Option Nat :=
  (digitsFrom? true t).bind fun ds => if digitLimit < ds.length then none else some (ofDigits ds)

def integer? (t : Text) : Option Int :=
  let ascii := (((t.map asciiForm).dropWhile isAsciiBlank).reverse.dropWhile isAsciiBlank).reverse
  match ascii with
  | '+' :: r => (natural? r).map Int.ofNat
  | '-' :: r => (natural? r).map fun n => -Int.ofNat n
  | r => (natural? r).map Int.ofNat

end ScriptMacros.Text
