import ScriptMacros.FileTree
import ScriptMacros.PrefixMap

namespace ScriptMacros

/-- A recorded inclusion: the path as requested, the path after its prefix was replaced, the file that asked for
it, and the path that it leads to. -/
structure Include where
  file : Text
  source : Text
  requested : Text
  path : Path
  found : Bool
deriving DecidableEq, Repr

namespace Include

def plainSlashes (mapped : Text) : Text :=
  Text.squeeze (.char '/') (mapped.map fun c => if c = .char '\\' then .char '/' else c)

def target (here : Address) (source mapped : Text) : Path :=
  (((Path.ofText source).absolute here).parent).join (Path.ofText (plainSlashes mapped))

/-- The record of an inclusion. A file that does not exist is no error; a path that cannot be asked about is, and
is handed back. -/
def resolve (prefixes : PrefixMap) (tree : FileTree) (requested source : Text) :
    Except (FileTree.Fault × Path) Include :=
  let mapped := prefixes.resolve requested
  let path := target tree.here source mapped
  match tree.isFile path with
  | .ok found => .ok ⟨mapped, source, requested, path, found⟩
  | .error f => .error (f, path)

end Include

end ScriptMacros
