import ScriptMacros.Json.Basic

namespace ScriptMacros.Json

inductive Problem where
  | value
  | name
  | colon
  | comma
  | extra
  | unterminated
  | control
  | escape
  | unicodeEscape
  | mark
deriving DecidableEq, Repr

def Problem.message : Problem → Text
  | value => "Expecting value".toText
  | name => "Expecting property name enclosed in double quotes".toText
  | colon => "Expecting ':' delimiter".toText
  | comma => "Expecting ',' delimiter".toText
  | extra => "Extra data".toText
  | unterminated => "Unterminated string starting at".toText
  | control => "Invalid control character at".toText
  | escape => "Invalid \\escape".toText
  | unicodeEscape => "Invalid \\uXXXX escape".toText
  | mark => "Unexpected UTF-8 BOM (decode using utf-8-sig)".toText

inductive Fault where
  | problem (p : Problem) (position : Nat)
  | hugeInteger (digits : Nat)
deriving DecidableEq, Repr

inductive Token where
  | openBrace
  | closeBrace
  | openBracket
  | closeBracket
  | colon
  | comma
  | text (t : Text)
  | scalar (v : Json)
  | badText (f : Fault)
  | badNumber (f : Fault)
  | unknown

def hexDigit? (c : CodePoint) : Option Nat :=
  if c.isDigit then some (c.toNat - 48)
  else if 'a'.toNat ≤ c.toNat ∧ c.toNat ≤ 'f'.toNat then some (c.toNat - 87)
  else if 'A'.toNat ≤ c.toNat ∧ c.toNat ≤ 'F'.toNat then some (c.toNat - 55)
  else none

def hexQuad? : Text → Option Nat
  | a :: b :: c :: d :: _ :: _ => do
    let a ← hexDigit? a
    let b ← hexDigit? b
    let c ← hexDigit? c
    let d ← hexDigit? d
    pure (((a * 16 + b) * 16 + c) * 16 + d)
  | _ => none

def escapes : List (CodePoint × Nat) :=
  [('"', 0x22), ('\\', 0x5c), ('/', 0x2f), ('b', 8), ('f', 12), ('n', 10), ('r', 13), ('t', 9)]

def escapeAt (start i : Nat) : Text → Except Fault (Nat × Nat)
  | [] => .error (.problem .unterminated start)
  | c :: t =>
    if c = 'u' then
      match hexQuad? t with
      | some n => .ok (n, 5)
      | none => .error (.problem .unicodeEscape (i + 1))
    else
      match Association.get? c escapes with
      | some n => .ok (n, 1)
      | none => .error (.problem .escape i)

def codesFrom (start : Nat) : (i skipped : Nat) → Text → Except Fault (List Nat × Nat)
  | _, _, [] => .error (.problem .unterminated start)
  | i, n + 1, _ :: t => codesFrom start (i + 1) n t
  | i, 0, c :: t =>
    if c = '"' then .ok ([], i + 1)
    else if c = '\\' then
      match escapeAt start i t with
      | .error f => .error f
      | .ok (code, n) => (codesFrom start (i + 1) n t).map fun (l, j) => (code :: l, j)
    else if c.toNat < 0x20 then .error (.problem .control i)
    else (codesFrom start (i + 1) 0 t).map fun (l, j) => (c.toNat :: l, j)

def joinPairs : List Nat → Text
  | [] => []
  | [n] => [.ofNat n]
  | n :: m :: l =>
    if 0xd800 ≤ n ∧ n < 0xdc00 ∧ 0xdc00 ≤ m ∧ m < 0xe000 then
      .char (Char.ofNat (0x10000 + (n - 0xd800) * 0x400 + (m - 0xdc00))) :: joinPairs l
    else .ofNat n :: joinPairs (m :: l)

def leadingDigits (t : Text) : Text := t.takeWhile CodePoint.isDigit

def wholeAt (t : Text) : Text := if t.head? = some (.char '0') then ['0'] else leadingDigits t

def fractionAt : Text → Text
  | '.' :: t => leadingDigits t
  | _ => []

def exponentAt : Text → Text
  | c :: t =>
    if c = 'e' ∨ c = 'E' then
      match t with
      | s :: r =>
        if s = '+' ∨ s = '-' then (if leadingDigits r = [] then [] else s :: leadingDigits r)
        else leadingDigits t
      | [] => []
    else []
  | [] => []

def valueOf (digits : Text) : Nat := digits.foldl (fun n c => 10 * n + (c.toNat - 48)) 0

def exponentValue : Text → Int
  | '-' :: t => -(valueOf t)
  | '+' :: t => valueOf t
  | t => valueOf t

def integerDigitLimit : Nat := 4300

def numberAt? (negative : Bool) (t : Text) : Option (Token × Nat) :=
  let whole := wholeAt t
  if whole = [] then none
  else
    let rest := t.drop whole.length
    let fraction := fractionAt rest
    let taken := if fraction = [] then 0 else fraction.length + 1
    let power := exponentAt (rest.drop taken)
    if fraction = [] ∧ power = [] then
      let n : Int := valueOf whole
      let token :=
        if integerDigitLimit < whole.length then .badNumber (.hugeInteger whole.length)
        else .scalar (.integer (if negative then -n else n))
      some (token, whole.length)
    else
      let x := Binary64.ofDecimal negative (valueOf (whole ++ fraction)) (exponentValue power - fraction.length)
      let length := whole.length + taken + (if power = [] then 0 else power.length + 1)
      some (.scalar (.number x), length)

def words : List (String × Json) :=
  [("null", .null), ("true", .bool true), ("false", .bool false), ("NaN", .number .nan),
    ("Infinity", .number (.infinity false)), ("-Infinity", .number (.infinity true))]

def wordAt? (t : Text) : Option (Token × Nat) :=
  words.findSome? fun (w, v) => (Text.after? w.toText t).map fun _ => (.scalar v, w.length)

def tokenAt (i : Nat) (c : CodePoint) (t : Text) : Token × Nat :=
  if c = '\x7b' then (.openBrace, 1)
  else if c = '\x7d' then (.closeBrace, 1)
  else if c = '[' then (.openBracket, 1)
  else if c = ']' then (.closeBracket, 1)
  else if c = ':' then (.colon, 1)
  else if c = ',' then (.comma, 1)
  else if c = '"' then
    match codesFrom i (i + 1) 0 t with
    | .ok (codes, stop) => (.text (joinPairs codes), stop - i)
    | .error f => (.badText f, 1)
  else
    match wordAt? (c :: t) with
    | some found => found
    | none =>
      if c = '-' then ((numberAt? true t).map fun (token, n) => (token, n + 1)).getD (.unknown, 1)
      else (numberAt? false (c :: t)).getD (.unknown, 1)

def tokensFrom : (i skipped : Nat) → Text → List (Nat × Token)
  | _, _, [] => []
  | i, n + 1, _ :: t => tokensFrom (i + 1) n t
  | i, 0, c :: t =>
    if c = ' ' ∨ c = '\t' ∨ c = '\n' ∨ c = '\r' then tokensFrom (i + 1) 0 t
    else
      let (token, length) := tokenAt i c t
      (i, token) :: tokensFrom (i + 1) (length - 1) t

end ScriptMacros.Json
