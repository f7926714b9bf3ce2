import ScriptMacros.Order
import ScriptMacros.Text.Basic

/-!
Bodies of macros with parameters. A body is read once into a template, which knows where an argument goes and
whether it goes in quotes; filling the template never looks at the body or the names again.
-/

namespace ScriptMacros

inductive Segment where
  | literal (c : CodePoint)
  | argument (index : Nat) (quoted : Bool)
deriving DecidableEq, Repr

abbrev Template := List Segment

def Segment.fill (arguments : List Text) : Segment → Text
  | literal c => [c]
  | argument i false => arguments.getD i []
  | argument i true => .char '"' :: arguments.getD i [] ++ [.char '"']

namespace Template

def fill (arguments : List Text) (t : Template) : Text := t.flatMap (Segment.fill arguments)

structure Parameter where
  name : Text
  index : Nat
deriving DecidableEq, Repr

def parameters (names : List Text) : List Parameter :=
  let all := names.zipIdx.map fun (name, index) => Parameter.mk name index
  longestFirst (·.name.length) (all.filter fun p => names.idxOf p.name = p.index)

def isBorder (c : Option CodePoint) : Bool := c.all fun c => !c.isAlpha

def parameterAt? (ps : List Parameter) (before : Option CodePoint) (t : Text) : Option Parameter :=
  if isBorder before then
    ps.find? fun p => ((Text.after? p.name t).map fun r => isBorder r.head?).getD false
  else none

structure Use where
  marks : Nat
  parameter : Parameter
deriving DecidableEq, Repr

def useAt? (ps : List Parameter) (before : Option CodePoint) : Text → Option Use
  | [] => (parameterAt? ps before []).map (Use.mk 0)
  | c :: t =>
    match if c = '#' then useAt? ps (some (.char '#')) t else none with
    | some u => some { u with marks := u.marks + 1 }
    | none => (parameterAt? ps before (c :: t)).map (Use.mk 0)

def Use.length (u : Use) : Nat := u.marks + u.parameter.name.length

def unpaired (marks : Nat) : Template := List.replicate (marks % 2) (.literal '#')

/-- A single hash sign puts the argument in quotes; more of them paste it to what stands before. -/
def Use.segments (u : Use) : Template :=
  if u.marks = 1 then [.argument u.parameter.index true]
  else unpaired u.marks ++ [.argument u.parameter.index false]

def segmentsFrom (ps : List Parameter) : (skipped : Nat) → (before : Option CodePoint) → Text → Template
  | 0, before, [] => ((useAt? ps before []).map Use.segments).getD []
  | _ + 1, _, [] => []
  | n + 1, _, c :: t => segmentsFrom ps n (some c) t
  | 0, before, c :: t =>
    match useAt? ps before (c :: t) with
    | some u =>
      match u.length with
      | 0 => u.segments ++ .literal c :: segmentsFrom ps 0 (some c) t
      | n + 1 => u.segments ++ segmentsFrom ps n (some c) t
    | none =>
      match ((c :: t).takeWhile (· = .char '#')).length with
      | n + 2 => unpaired (n + 2) ++ segmentsFrom ps (n + 1) (some c) t
      | _ => .literal c :: segmentsFrom ps 0 (some c) t

def ofBody (names : List Text) (body : Text) : Template := segmentsFrom (parameters names) 0 none body

end Template

/-- The body with arguments for parameters, in one pass. A parameter without an argument stays as it is, and an
argument without a parameter is dropped. -/
def substitute (body : Text) (parameters arguments : List Text) : Text :=
  (Template.ofBody (parameters.take arguments.length) body).fill arguments

end ScriptMacros
