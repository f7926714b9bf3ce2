import ScriptMacros.Run.Pass

namespace ScriptMacros

namespace Project

def runLines (p : Project) (source : Text) (tagged : Bool) (lines : List Text) : Pass :=
  match FileTree.askSource source with
  | .error f => .error ⟨.source f source, [], {}⟩
  | .ok _ => p.pass [(Path.ofText source).address p.tree.here] source tagged lines {}

def run (p : Project) (source : Text) (tagged : Bool) (script : Text) : Except Halt (Text × Progress) :=
  (p.runLines source tagged (sourceLines script)).map fun (lines, g) => (Text.ofLines lines, g)

end Project

structure Report where
  progress : Progress
  active : List Address
deriving DecidableEq

def Report.ofRun : Except Halt (Text × Progress) → Report
  | .ok (_, g) => ⟨g, []⟩
  | .error halt => ⟨halt.progress, halt.active⟩

structure Session where
  options : Options := {}
  codecs : Codecs := .four
  last : Option Report := none

namespace Session

def progress (s : Session) : Progress := (s.last.map (·.progress)).getD {}

def run (s : Session) (tree : FileTree) (source : Text) (tagged : Bool) (script : Text) :
    Except Failure Text × Session :=
  let outcome := Project.run ⟨s.options, tree, s.codecs⟩ source tagged script
  let answer :=
    match outcome with
    | .ok (t, _) => .ok t
    | .error halt => .error halt.failure
  (answer, { s with last := some (Report.ofRun outcome) })

/-- Runs the script in a file. A file that cannot be read leaves the report of the last run in place. -/
def runFile (s : Session) (tree : FileTree) (path : Text) (tagged : Bool) : Except Failure Text × Session :=
  let p := Path.ofText path
  match Project.readText ⟨s.options, tree, s.codecs⟩ p with
  | .ok script => s.run tree p.toText tagged script
  | .error f => (.error (.unreadable f), s)

end Session

end ScriptMacros
