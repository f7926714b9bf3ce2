import ScriptMacros.Text.Basic

namespace ScriptMacros

/-- How many macros may be replaced in a line, one after another. A settings document may say `true`, which
counts as one and is shown as written; without any limit no replacement can be checked. -/
inductive Limit where
  | count (n : Int)
  | yes
  | absent
deriving DecidableEq, Repr

namespace Limit

def allowed? : Limit → Option Nat
  | count n => some n.toNat
  | yes => some 1
  | absent => none

def standard : Limit := count 1000

end Limit

end ScriptMacros
