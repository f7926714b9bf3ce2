import ScriptMacros.Json.Token

namespace ScriptMacros.Json

/-- A collection that is still open, with what it holds so far: an array has its last item first, and the last name
of an object waits for its value. -/
inductive Frame where
  | array (items : List Json)
  | object (fields : List (Text × Json)) (key : Text)

inductive State where
  | value (stack : List Frame)
  | firstItem (stack : List Frame)
  | firstName (stack : List Frame)
  | name (fields : List (Text × Json)) (stack : List Frame)
  | colon (fields : List (Text × Json)) (key : Text) (stack : List Frame)
  | separator (frame : Frame) (stack : List Frame)
  | done (v : Json)

def State.problem : State → Problem
  | value _ | firstItem _ => .value
  | firstName _ | name _ _ => .name
  | colon _ _ _ => .colon
  | separator _ _ => .comma
  | done _ => .extra

def State.after (v : Json) : List Frame → State
  | [] => done v
  | .array items :: stack => separator (.array (v :: items)) stack
  | .object fields key :: stack => separator (.object (Association.put key v fields) key) stack

def State.begin (i : Nat) (stack : List Frame) : Token → Except Fault State
  | .openBracket => .ok (firstItem stack)
  | .openBrace => .ok (firstName stack)
  | .text t => .ok (after (.string t) stack)
  | .scalar v => .ok (after v stack)
  | .badText f | .badNumber f => .error f
  | _ => .error (.problem .value i)

def State.step (s : State) (i : Nat) (token : Token) : Except Fault State :=
  match s, token with
  | value stack, _ => begin i stack token
  | firstItem stack, .closeBracket => .ok (after (.array []) stack)
  | firstItem stack, _ => begin i (.array [] :: stack) token
  | firstName stack, .closeBrace => .ok (after (.object []) stack)
  | firstName stack, .text t => .ok (colon [] t stack)
  | name fields stack, .text t => .ok (colon fields t stack)
  | firstName _, .badText f | name _ _, .badText f => .error f
  | colon fields t stack, .colon => .ok (value (.object fields t :: stack))
  | separator (.array items) stack, .comma => .ok (value (.array items :: stack))
  | separator (.array items) stack, .closeBracket => .ok (after (.array items.reverse) stack)
  | separator (.object fields _) stack, .comma => .ok (name fields stack)
  | separator (.object fields _) stack, .closeBrace => .ok (after (.object fields) stack)
  | _, _ => .error (.problem s.problem i)

def State.run (length : Nat) : State → List (Nat × Token) → Except Fault Json
  | done v, [] => .ok v
  | s, [] => .error (.problem s.problem length)
  | s, (i, token) :: l =>
    match s.step i token with
    | .ok s => run length s l
    | .error f => .error f

def parse (t : Text) : Except Fault Json :=
  if t.head? = some (.char '\ufeff') then .error (.problem .mark 0)
  else (State.value []).run t.length (tokensFrom 0 0 t)

def Fault.message (document : Text) : Fault → Text
  | problem p i =>
    let before := document.take i
    let line := before.count (.char '\n') + 1
    let column := (before.reverse.takeWhile (· ≠ .char '\n')).length + 1
    p.message ++ ": line ".toText ++ Text.ofNat line ++ " column ".toText ++ Text.ofNat column ++
      " (char ".toText ++ Text.ofNat i ++ [.char ')']
  | hugeInteger n =>
    "Exceeds the limit (4300 digits) for integer string conversion: value has ".toText ++ Text.ofNat n ++
      " digits; use sys.set_int_max_str_digits() to increase the limit".toText

end ScriptMacros.Json
