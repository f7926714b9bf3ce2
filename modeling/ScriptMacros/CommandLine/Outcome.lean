import ScriptMacros.CommandLine.Request
import ScriptMacros.Options.Environment
import ScriptMacros.Run.Session

namespace ScriptMacros.CommandLine

structure Outcome where
  exitCode : Nat := 0
  stdout : Text := []
  stderr : Text := []
  tree : FileTree
deriving DecidableEq

namespace Click

def echoErrors (click : Click) (ts : List Text) : Text := ts.flatMap click.echoError

def echoAll (click : Click) : List Text → Text × Option Text
  | [] => ([], none)
  | t :: ts =>
    match click.echo t with
    | .error message => ([], some message)
    | .ok written =>
      let (later, fault) := click.echoAll ts
      (written ++ later, fault)

end Click

def preprocessError : Nat := 1

def invalidArguments : Nat := 2

def internalError : Nat := 3

structure Complaint where
  exitCode : Nat
  message : Text
deriving DecidableEq, Repr

namespace Complaint

def aboutInput (message : Text) : Complaint := ⟨invalidArguments, "Error: ".toText ++ message⟩

def unforeseen (message : Text) : Complaint := ⟨internalError, "Internal error: ".toText ++ message⟩

def ofOptions (f : Options.Fault) : Complaint := if f.isForeseen then aboutInput f.message else unforeseen f.message

def ofPath (f : FileTree.Fault) (path : Text) : Complaint :=
  match f with
  | .missing | .denied => aboutInput (f.message path)
  | _ => unforeseen (f.message path)

def ofFailure (f : Failure) : Complaint :=
  match f with
  | .unreadable (.path fault p) => ofPath fault p.toText
  | .unreadable _ | .source .. => unforeseen f.message
  | _ => ⟨preprocessError, f.message⟩

end Complaint

def macroLine (m : Macro) : Text :=
  let parameters :=
    match m.parameters with
    | some ps => .char '(' :: List.intercalate [.char ','] ps ++ [.char ')']
    | none => []
  m.name ++ parameters ++ " = ".toText ++ Text.quoted m.body ++ " [".toText ++ Text.ofNat m.definitions.length ++
    " definition(s), first at ".toText ++ m.source ++ .char ':' :: Text.ofInt m.line ++ [.char ']']

def includeLine (i : Include) : Text :=
  i.source ++ ": ".toText ++ i.file ++ " -> ".toText ++ i.path.toText ++
    (if i.found then "" else " (missing)").toText

def listing (r : Request) (g : Progress) : List Text :=
  (if r.listMacros then g.macros.macros.map macroLine else []) ++
    if r.listIncludes then g.includes.map includeLine else []

def remarks (r : Request) (o : Options) : List Text :=
  if r.verbose then
    ("Preprocessing ".toText ++ (Path.ofText r.input).toText ++ "...".toText) ::
      o.prefixes.entries.map fun (virtual, real) =>
        "Include path: ".toText ++ virtual ++ " -> ".toText ++ real
  else []

def save (codecs : Codecs) (tree : FileTree) (encoding : Text) (path text : Text) :
    Except (Complaint × FileTree) FileTree :=
  let p := Path.ofText path
  match Encoding.soundName encoding with
  | .error f => .error (.unforeseen f.message, tree)
  | .ok _ =>
    -- Opening the file empties it, before its encoding is looked up and before the text is put into bytes.
    match tree.write p [] with
    | .error f => .error (.ofPath f p.toText, tree)
    | .ok emptied =>
      match codecs.find encoding with
      | .error f => .error (.unforeseen f.message, emptied)
      | .ok c =>
        match c.encode text with
        | .error message => .error (.unforeseen message, emptied)
        | .ok bytes =>
          match emptied.write p bytes with
          | .error f => .error (.ofPath f p.toText, emptied)
          | .ok later => .ok later

def Outcome.ofComplaint (click : Click) (tree : FileTree) (remarks : List Text) (c : Complaint) : Outcome :=
  { exitCode := c.exitCode, stderr := click.echoErrors (remarks ++ [c.message]), tree }

def Outcome.ofListing (click : Click) (tree : FileTree) (remarks listing : List Text) : Outcome :=
  match click.echoAll listing with
  | (written, none) => { stdout := written, stderr := click.echoErrors remarks, tree }
  | (written, some message) => { Outcome.ofComplaint click tree remarks (.unforeseen message) with stdout := written }

def perform (click : Click) (codecs : Codecs) (tree : FileTree) (e : Environment) (r : Request) : Outcome :=
  match Options.build tree e r.config r.prefixes r.limit with
  | .error f => .ofComplaint click tree [] (.ofOptions f)
  | .ok options =>
    let remarks := remarks r options
    let (answer, session) := Session.runFile { options, codecs } tree r.input r.tagged
    match answer with
    | .error f => .ofComplaint click tree remarks (.ofFailure f)
    | .ok text =>
      if r.listMacros || r.listIncludes then
        .ofListing click tree remarks (listing r session.progress)
      else
        match r.output with
        | none =>
          match click.echo text with
          | .error message => .ofComplaint click tree remarks (.unforeseen message)
          | .ok written => { stdout := written, stderr := click.echoErrors remarks, tree }
        | some path =>
          match save codecs tree options.encoding path text with
          | .error (c, left) => .ofComplaint click left remarks c
          | .ok later =>
            let written := "Wrote ".toText ++ Text.ofNat text.length ++ " characters to ".toText ++
              (Path.ofText path).toText
            { stderr := click.echoErrors (remarks ++ if r.verbose then [written] else []), tree := later }

def run (click : Click) (codecs : Codecs) (tree : FileTree) (e : Environment) (arguments : List Text) : Outcome :=
  match click.receive includeOption tree arguments with
  | .error ending => { exitCode := ending.exitCode, stdout := ending.stdout, stderr := ending.stderr, tree }
  | .ok r => perform click codecs tree e r

end ScriptMacros.CommandLine
