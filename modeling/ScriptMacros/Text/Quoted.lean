import ScriptMacros.Text.Basic
import ScriptMacros.Character.Printable

namespace ScriptMacros.Text

def hex (width n : Nat) : Text :=
  let digits := Nat.toDigits 16 n
  (List.replicate (width - digits.length) '0' ++ digits).map CodePoint.char

def quoteFor (t : Text) : CodePoint :=
  if t.contains (.char '\x27') && !t.contains (.char '"') then '"' else '\x27'

def byCode (n : Nat) : Text :=
  if n ≤ 0xff then .char '\\' :: .char 'x' :: hex 2 n
  else if n ≤ 0xffff then .char '\\' :: .char 'u' :: hex 4 n
  else .char '\\' :: .char 'U' :: hex 8 n

def escaped (quote c : CodePoint) : Text :=
  if c = quote ∨ c = '\\' then ['\\', c]
  else if c = '\n' then ['\\', 'n']
  else if c = '\r' then ['\\', 'r']
  else if c = '\t' then ['\\', 't']
  else if Character.isPrintable c then [c]
  else byCode c.toNat

def quoted (t : Text) : Text :=
  let quote := quoteFor t
  quote :: t.flatMap (escaped quote) ++ [quote]

end ScriptMacros.Text
