import ScriptMacros.Limit
import ScriptMacros.PrefixMap
import ScriptMacros.Text.Quoted

namespace ScriptMacros

structure Options where
  prefixes : PrefixMap := .empty
  limit : Limit := .standard
  encoding : Text := "utf-8".toText
deriving DecidableEq

namespace Options

instance : Inhabited Options := ⟨{}⟩

/-- A layer of settings on top of others: its prefixes are tried first, and its other settings count. -/
def merged (lower : Options) : Option Options → Options
  | none => lower
  | some upper => { upper with prefixes := upper.prefixes.above lower.prefixes }

end Options

end ScriptMacros
