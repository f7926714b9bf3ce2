import ScriptMacros.Text.Blank

namespace ScriptMacros.Bracket

def weight (c : CodePoint) : Int :=
  if c = '(' then 1 else if c = ')' then -1 else 0

def depth : Text → Int
  | [] => 0
  | c :: t => weight c + depth t

theorem depth_append (s t : Text) : depth (s ++ t) = depth s + depth t := by
  induction s with
  | nil => simp [depth]
  | cons c s ih => simp [depth, ih, Int.add_assoc]

def Balanced (t : Text) : Prop :=
  depth t = 0 ∧ ∀ p, p <+: t → 0 ≤ depth p

def cutFrom? (passed : Text) (opened : Nat) : Text → Option (Text × Text)
  | [] => none
  | c :: t =>
    if c = ')' then
      match opened with
      | 0 => some (passed.reverse, t)
      | n + 1 => cutFrom? (c :: passed) n t
    else cutFrom? (c :: passed) (if c = '(' then opened + 1 else opened) t

theorem eq_append_of_cutFrom? {p t u v : Text} {n : Nat} (h : cutFrom? p n t = some (u, v)) :
    p.reverse ++ t = u ++ .char ')' :: v := by
  fun_induction cutFrom? p n t with
  | case1 => contradiction
  | case2 => simp_all
  | case3 _ _ _ ih => simpa using ih h
  | case4 _ _ _ _ _ ih => simpa using ih h

def cut? (t : Text) : Option (Text × Text) := cutFrom? [] 0 t

theorem eq_append_of_cut? {t u v : Text} (h : cut? t = some (u, v)) : t = u ++ .char ')' :: v :=
  eq_append_of_cutFrom? h

def closing? (t : Text) : Option Nat := (cut? t).map (·.1.length)

/-- What does not stop a reader: a character after a backslash, the inside of a group and its end. -/
structure Protection where
  escapes : Bool := false
  groups : Bool := false
deriving DecidableEq, Repr

def readFrom (stop : CodePoint) (p : Protection) : (copied : Nat) → (escaped : Bool) → Text → Text
  | _, _, [] => []
  -- The inside of a group is copied without a look at it, its backslashes too.
  | n + 1, _, c :: t => c :: readFrom stop p n false t
  | 0, escaped, c :: t =>
    if c = stop ∧ escaped = false then []
    else
      let group := if p.groups ∧ c = '(' then (closing? t).elim 0 (· + 1) else 0
      c :: readFrom stop p group (p.escapes && c == '\\') t

/-- The text up to the first `stop` that is not protected. A group counts as one only if it is closed. -/
def readUntil (stop : CodePoint) (p : Protection) (t : Text) : Text := readFrom stop p 0 false t

def piecesFrom (passed : Text) (level : Int) : Text → List Text
  | [] => [passed.reverse]
  | c :: t =>
    if c = ',' ∧ level = 0 then passed.reverse :: piecesFrom [] 0 t
    else piecesFrom (c :: passed) (level + weight c) t

def arguments (t : Text) : List Text :=
  if t.trim = [] then [] else (piecesFrom [] 0 t).map Text.trim

end ScriptMacros.Bracket
