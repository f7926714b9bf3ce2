import ScriptMacros.FileTree
import ScriptMacros.Options.Document

namespace ScriptMacros.CommandLine

structure Request where
  input : Text := []
  output : Option Text := none
  prefixes : PrefixMap := .empty
  config : Option Text := none
  limit : Option Int := none
  tagged : Bool := false
  listMacros : Bool := false
  listIncludes : Bool := false
  verbose : Bool := false
deriving DecidableEq

def includeOption (values : List Text) : Except Text PrefixMap :=
  (PrefixMap.parsePairs values).mapError fun pair => (Options.Fault.invalidPair pair).message

structure Ending where
  exitCode : Nat
  stdout : Text := []
  stderr : Text := []
deriving DecidableEq, Repr

/-- A library for command lines. It makes a request of arguments, with the help of a function for the values of the
prefix option, and writes texts to the standard output, which can fail, and to the error output. -/
structure Click where
  receive : (List Text → Except Text PrefixMap) → FileTree → List Text → Except Ending Request
  echo : Text → Except Text Text
  echoError : Text → Text

/-- What the documentation of the library says. Refused arguments are only told of on the error output, and a text
without the sign that opens control sequences is written as it is, with a line feed. -/
structure Click.Documented (click : Click) : Prop where
  refuses : ∀ option tree arguments ending, click.receive option tree arguments = .error ending →
    ending.exitCode ≠ 0 → ending.stdout = []
  plain : ∀ t written : Text, .char '\x1b' ∉ t → click.echo t = .ok written → written = t ++ [.char '\n']

end ScriptMacros.CommandLine
