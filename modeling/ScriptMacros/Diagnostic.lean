import ScriptMacros.Location

namespace ScriptMacros

structure Diagnostic where
  message : Text
  location : Option Location := none
  hint : Option Text := none
  quotedLine : Option Text := none
deriving DecidableEq, Repr

namespace Diagnostic

def excerpt (l : Location) (line : Text) : List Text :=
  let indent := List.replicate 4 (CodePoint.char ' ')
  (indent ++ line) ::
    if 0 < l.column then [indent ++ List.replicate (l.column - 1).toNat (.char ' ') ++ [.char '^']] else []

def render (d : Diagnostic) : Text :=
  let place := (d.location.map fun l => l.toText ++ ": ".toText).getD []
  let quote :=
    match d.location, d.quotedLine with
    | some l, some line => excerpt l line
    | _, _ => []
  let hint := ((d.hint.filter (· ≠ [])).map ("hint: ".toText ++ ·)).toList
  Text.ofLines ((place ++ "error: ".toText ++ d.message) :: quote ++ hint)

def inclusion (file reason : Text) (location : Option Location) (chain : List Text) : Diagnostic where
  message := "cannot include '".toText ++ file ++ "': ".toText ++ reason
  location := location
  hint := if chain = [] then none else some ("include chain: ".toText ++ " -> ".toText.intercalate chain)

def recursion (name : Text) (count : Int) (location : Option Location) (line : Option Text) : Diagnostic where
  message := "macro '".toText ++ name ++ "' expands recursively (gave up after ".toText ++ Text.ofInt count ++
    " expansions)".toText
  location := location
  hint := some ("check the #define of '".toText ++ name ++ "' for a self reference".toText)
  quotedLine := line

end Diagnostic

end ScriptMacros
