import ScriptMacros.Text.Basic

namespace ScriptMacros

abbrev Address := List Text

instance Address.decidableMem (a : Address) (l : List Address) : Decidable (a ∈ l) := inferInstance

def Address.toText : Address → Text
  | [] => [.char '/']
  | a :: l => (a :: l).flatMap (.char '/' :: ·)

/-- Where a path starts. Two slashes in front, and only two, are kept apart from one. -/
inductive Anchor where
  | relative
  | root
  | doubleRoot
deriving DecidableEq, Repr

structure Path where
  anchor : Anchor
  names : List Text
deriving DecidableEq, Repr

namespace Path

def up : Text := [.char '.', .char '.']

def anchorOf : (slashes : Nat) → Anchor
  | 0 => .relative
  | 2 => .doubleRoot
  | _ => .root

def stay : Text := [.char '.']

def ofText (t : Text) : Path where
  anchor := anchorOf (t.takeWhile (· = .char '/')).length
  names := (t.splitOn (.char '/')).filter fun n => n ≠ [] ∧ n ≠ stay

def toText (p : Path) : Text :=
  let names : Text := List.intercalate ['/'] p.names
  match p.anchor with
  | .relative => if p.names = [] then stay else names
  | .root => .char '/' :: names
  | .doubleRoot => .char '/' :: .char '/' :: names

def start (here : Address) (p : Path) : Address :=
  match p.anchor with
  | .relative => here
  | _ => []

def absolute (here : Address) (p : Path) : Path :=
  match p.anchor with
  | .relative => ⟨.root, here ++ p.names⟩
  | _ => p

def parent (p : Path) : Path := { p with names := p.names.dropLast }

def join (p q : Path) : Path :=
  match q.anchor with
  | .relative => { p with names := p.names ++ q.names }
  | _ => q

def step (a : Address) (n : Text) : Address :=
  if n = [] ∨ n = stay then a else if n = up then a.dropLast else a ++ [n]

/-- The names before a name that leads up, and what stays of them and of it. Only a relative path can lead up from its
start. -/
def upFrom (anchor : Anchor) (names : List Text) : List Text :=
  if anchor = .relative ∧ (names = [] ∨ names.getLast? = some up) then names ++ [up] else names.dropLast

def address (here : Address) (p : Path) : Address := p.names.foldl step (p.start here)

end Path

end ScriptMacros
