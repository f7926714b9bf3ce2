import ScriptMacros.Association
import ScriptMacros.Binary64
import ScriptMacros.Text.Quoted

namespace ScriptMacros

inductive Json where
  | null
  | bool (b : Bool)
  | integer (n : Int)
  | number (x : Binary64)
  | string (t : Text)
  | array (items : List Json)
  | object (fields : List (Text × Json))

namespace Json

def saysSomething : Json → Bool
  | null => false
  | bool b => b
  | integer n => n ≠ 0
  | number x => !x.isZero
  | string t => t ≠ []
  | array items => !items.isEmpty
  | object fields => !fields.isEmpty

mutual

def shown : Json → Text
  | null => "None".toText
  | bool b => (if b then "True" else "False").toText
  | integer n => Text.ofInt n
  | number x => x.toText
  | string t => t.quoted
  | array items => .char '[' :: shownItems items ++ [.char ']']
  | object fields => .char '\x7b' :: shownFields fields ++ [.char '\x7d']

def shownItems : List Json → Text
  | [] => []
  | [v] => shown v
  | v :: w :: l => shown v ++ .char ',' :: .char ' ' :: shownItems (w :: l)

def shownFields : List (Text × Json) → Text
  | [] => []
  | [(k, v)] => k.quoted ++ .char ':' :: .char ' ' :: shown v
  | (k, v) :: p :: l => k.quoted ++ .char ':' :: .char ' ' :: shown v ++ .char ',' :: .char ' ' :: shownFields (p :: l)

end

def toText : Json → Text
  | string t => t
  | v => v.shown

def text? : Json → Option Text
  | string t => some t
  | _ => none

def field? (k : Text) : List (Text × Json) → Option Json := Association.get? k

end Json

end ScriptMacros
