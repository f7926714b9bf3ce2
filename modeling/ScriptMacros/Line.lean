import ScriptMacros.Text.Blank

namespace ScriptMacros.Line

def blockRest? : Text → Option Nat
  | [] => none
  | c :: t =>
    -- The first star decides: if no slash follows, the comment is never closed.
    if c = '*' then
      match t with
      | '/' :: _ => some 2
      | _ => none
    else (blockRest? t).map (· + 1)

def commentLength : Text → Nat
  | '/' :: '*' :: t => (blockRest? t).elim 0 (· + 2)
  | '/' :: '/' :: t => (t.takeWhile (· != .char '\n')).length + 2
  | _ => 0

def dropCommentsFrom : (skipped : Nat) → Text → Text
  | _, [] => []
  | n + 1, _ :: t => dropCommentsFrom n t
  | 0, c :: t =>
    match commentLength (c :: t) with
    | 0 => c :: dropCommentsFrom 0 t
    | n + 1 => dropCommentsFrom n t

def dropComments (t : Text) : Text := dropCommentsFrom 0 t

def normalize (t : Text) : Text :=
  (dropComments t.trimStart).map fun c : CodePoint => if c = '\t' then .char ' ' else c

end ScriptMacros.Line
