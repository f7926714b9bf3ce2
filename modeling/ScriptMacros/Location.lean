import ScriptMacros.Text.Basic

namespace ScriptMacros

structure Location where
  file : Text
  line : Int
  column : Int
deriving DecidableEq, Repr

def Location.toText (l : Location) : Text :=
  l.file ++ .char ':' :: Text.ofInt l.line ++ .char ':' :: Text.ofInt l.column

end ScriptMacros
