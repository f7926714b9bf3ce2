import ScriptMacros.Bracket
import ScriptMacros.Text.Lower

namespace ScriptMacros

structure Directive where
  word : Text
  value : Text
deriving DecidableEq, Repr

namespace Directive

inductive Fault where
  | noMacroName
  | noFileName
deriving DecidableEq, Repr

def Fault.message : Fault → Text
  | noMacroName => "#define without a macro name".toText
  | noFileName => "#include without a quoted filename".toText

def ofLine? : Text → Option Directive
  | '#' :: t =>
    let word := Bracket.readUntil ' ' {} t
    some ⟨word, Bracket.readUntil '\n' ⟨true, true⟩ (t.drop (word.length + 1))⟩
  | _ => none

def keyword (d : Directive) : Text := d.word.lower

/-- What a directive does. Conditions are recognised, but no line is ever left out because of one. -/
inductive Kind where
  | define
  | inclusion
  | condition
  | unknown
deriving DecidableEq, Repr

def Kind.ofKeyword (k : Text) : Kind :=
  if k = "define".toText then .define
  else if k = "include".toText then .inclusion
  else if k ∈ ["ifdef", "ifndef", "undef", "else"].map String.toText then .condition
  else .unknown

def kind (d : Directive) : Kind := .ofKeyword d.keyword

/-- The file named by the value of an inclusion: all but the first and the last character, whatever quotes
they are. -/
def fileName (value : Text) : Except Fault Text :=
  let name := value.trim
  if name.length < 2 then .error .noFileName else .ok name.dropLast.tail

end Directive

/-- A macro as declared on one line. A macro without parameters is replaced wherever its name stands; one with
a parameter list, even an empty one, only where a group in brackets follows its name. -/
structure Declaration where
  name : Text
  parameters : Option (List Text)
  body : Text
deriving DecidableEq, Repr

namespace Declaration

def parameterNames (t : Text) : List Text :=
  ((t.splitOn (.char ',')).map Text.trim).filter (· ≠ [])

def parse (value : Text) : Except Directive.Fault Declaration :=
  let t := value.dropWhile (· = .char ' ')
  let head := Bracket.readUntil ' ' ⟨false, true⟩ t
  let rest := t.drop head.length
  let d : Declaration :=
    match head.cutAt? (.char '(') with
    | none => ⟨head, none, rest⟩
    | some (name, inner) =>
      match Bracket.cut? inner with
      | some (inside, glued) => ⟨name, some (parameterNames inside), glued ++ rest⟩
      | none => ⟨name, some (parameterNames inner), rest⟩
  if d.name = [] then .error .noMacroName else .ok { d with body := d.body.trim }

end Declaration

end ScriptMacros
