import ScriptMacros.Options.Document
import ScriptMacros.Text.Integer

namespace ScriptMacros

structure Environment where
  includePaths : Option Text := none
  maxExpansions : Option Text := none
deriving DecidableEq, Repr

namespace Environment

def limit (written : Option Text) : Limit :=
  match written.bind Text.integer? with
  | some n => if 1 ≤ n then .count n else .standard
  | none => .standard

def options (e : Environment) : Except Options.Fault Options :=
  match PrefixMap.parsePairs ((e.includePaths.getD []).splitOn (.char ';')) with
  | .error pair => .error (.invalidPair pair)
  | .ok prefixes => .ok { prefixes, limit := limit e.maxExpansions }

end Environment

namespace Options

def withPrefixes (o : Options) (m : PrefixMap) : Options :=
  if m.entries = [] then o else o.merged (some { o with prefixes := m })

def withLimit (o : Options) (limit : Option Int) : Options :=
  match limit with
  | some n => { o with limit := .count n }
  | none => o

/-- Settings from all layers, the lowest first: variables, a document, prefixes and a limit. -/
def build (tree : FileTree) (e : Environment) (document : Option Text) (prefixes : PrefixMap)
    (limit : Option Int) : Except Fault Options := do
  let lowest ← e.options
  let written ←
    match document with
    | some path => fromFile tree path lowest
    | none => pure lowest
  pure ((written.withPrefixes prefixes).withLimit limit)

end Options

end ScriptMacros
