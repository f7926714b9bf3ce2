import ScriptMacros.Association
import ScriptMacros.Text.Blank
import ScriptMacros.Text.Quoted

namespace ScriptMacros

structure PrefixMap where
  entries : List (Text × Text)
  nodup : (entries.map (·.1)).Nodup
deriving DecidableEq

namespace PrefixMap

def empty : PrefixMap := ⟨[], List.nodup_nil⟩

instance : Inhabited PrefixMap := ⟨empty⟩

def put (m : PrefixMap) (virtual real : Text) : PrefixMap :=
  ⟨Association.put virtual real m.entries, Association.nodup_put m.nodup⟩

def putNew (m : PrefixMap) (virtual real : Text) : PrefixMap :=
  ⟨Association.putNew virtual real m.entries, Association.nodup_putNew m.nodup⟩

def ofList (l : List (Text × Text)) : PrefixMap := l.foldl (fun m p => m.put p.1 p.2) empty

def above (upper lower : PrefixMap) : PrefixMap := lower.entries.foldl (fun m p => m.putNew p.1 p.2) upper

def resolve (m : PrefixMap) (path : Text) : Text :=
  (m.entries.findSome? fun (virtual, real) => (Text.after? virtual path).map (real ++ ·)).getD path

def addPair (m : PrefixMap) (written : Text) : Except Text PrefixMap :=
  let pair : Text := written.trim
  if pair = [] then .ok m
  else
    match pair.cutAt? (.char '=') with
    | some (virtual, real) => .ok (m.put virtual real)
    | none => .error pair

def parsePairs (pairs : List Text) : Except Text PrefixMap := pairs.foldlM addPair empty

end PrefixMap

end ScriptMacros
