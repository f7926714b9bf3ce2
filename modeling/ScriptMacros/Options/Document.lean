import ScriptMacros.Encoding
import ScriptMacros.FileTree
import ScriptMacros.Json.Reader
import ScriptMacros.Options.Basic

namespace ScriptMacros.Options

inductive Fault where
  | invalidPair (pair : Text)
  | unreadable (path : Text) (f : FileTree.Fault)
  | invalidDocument (path document : Text) (f : Json.Fault)
  | notObject (path : Text)
  | invalidPrefixes (path : Text)
  | invalidLimit (path : Text)
  | undecodable (f : Encoding.DecodeFault)
deriving DecidableEq, Repr

def Fault.message : Fault → Text
  | invalidPair pair => "invalid include path '".toText ++ pair ++ "', expected VIRTUAL=REAL".toText
  | unreadable path .nulInName => FileTree.Fault.nulInName.message path
  | unreadable path (.surrogates f) => (FileTree.Fault.surrogates f).message path
  | unreadable path f => "cannot read options file '".toText ++ path ++ "': ".toText ++ f.message path
  | invalidDocument _ document (.hugeInteger n) => (Json.Fault.hugeInteger n).message document
  | invalidDocument path document f =>
    "invalid JSON in options file '".toText ++ path ++ "': ".toText ++ f.message document
  | notObject path => "options file '".toText ++ path ++ "' must contain a JSON object".toText
  | invalidPrefixes path => "'includePaths' in '".toText ++ path ++ "' must map strings to strings".toText
  | invalidLimit path => "'maxExpansions' in '".toText ++ path ++ "' must be a positive integer".toText
  | undecodable f => f.message

/-- Whether a fault counts as one of the settings. Bytes that are no text, integers beyond the digit limit and
paths that no file can have are not foreseen. -/
def Fault.isForeseen : Fault → Bool
  | unreadable _ .nulInName | unreadable _ (.surrogates _) => false
  | invalidDocument _ _ (.hugeInteger _) | undecodable _ => false
  | _ => true

def setting? (fields : List (Text × Json)) (first second : String) : Option Json :=
  match Json.field? first.toText fields with
  | some v => some v
  | none => Json.field? second.toText fields

def prefixes? : Json → Option PrefixMap
  | .object fields =>
    (fields.mapM fun (field : Text × Json) => field.2.text?.map (field.1, ·)).map PrefixMap.ofList
  | _ => none

def limit? : Json → Option Limit
  | .integer n => if 1 ≤ n then some (.count n) else none
  | .bool true => some .yes
  | _ => none

def fromFields (path : Text) (fields : List (Text × Json)) (base : Options) : Except Fault Options :=
  match prefixes? ((setting? fields "includePaths" "include_paths").getD (.object [])) with
  | none => .error (.invalidPrefixes path)
  | some prefixes =>
    let limit :=
      match setting? fields "maxExpansions" "max_expansions" with
      | none | some .null => some base.limit
      | some v => limit? v
    match limit with
    | none => .error (.invalidLimit path)
    | some limit =>
      let encoding :=
        match (Json.field? "encoding".toText fields).filter Json.saysSomething with
        | some v => v.toText
        | none => base.encoding
      .ok ⟨prefixes.above base.prefixes, limit, encoding⟩

def fromFile (tree : FileTree) (path : Text) (base : Options) : Except Fault Options :=
  let p := Path.ofText path
  match tree.read p with
  | .error f => .error (.unreadable p.toText f)
  | .ok bytes =>
    match Encoding.decode .utf8 bytes with
    | .error f => .error (.undecodable f)
    | .ok t =>
      let document := Encoding.unifyLineEnds t
      match Json.parse document with
      | .error f => .error (.invalidDocument p.toText document f)
      | .ok (.object fields) => fromFields p.toText fields base
      | .ok _ => .error (.notObject p.toText)

end ScriptMacros.Options
