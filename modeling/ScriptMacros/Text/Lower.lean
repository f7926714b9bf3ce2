import ScriptMacros.Text.Basic
import ScriptMacros.Character.Small
import ScriptMacros.Character.Case

namespace ScriptMacros.Text

def leadsToCased (t : Text) : Bool :=
  ((t.find? fun c => !Character.isCaseIgnorable c).map Character.isCased).getD false

def lowerFrom (inWord : Bool) : Text → Text
  | [] => []
  | c :: t =>
    let small : Text :=
      if c = 'Σ' then [if inWord && !leadsToCased t then 'ς' else 'σ']
      else if c = 'İ' then ['i', '\u0307']
      else [Character.toSmall c]
    small ++ lowerFrom (if Character.isCaseIgnorable c then inWord else Character.isCased c) t

/-- The text in lower case; a sigma that ends a word takes its final form. -/
def lower (t : Text) : Text := lowerFrom false t

end ScriptMacros.Text
