import ScriptMacros.Encoding

namespace ScriptMacros.Encoding

def plainName (name : Text) : Text :=
  let keep := fun c : CodePoint => c.isAlphanum || c == '.'
  let signs := name.map fun c => if keep c then c.toLower else .char '_'
  (((signs.dropWhile (· = .char '_')).reverse.dropWhile (· = .char '_')).reverse).foldr
    (fun (c : CodePoint) t => if c = '_' ∧ t.head? = some (.char '_') then t else c :: t) []

def ownNames : List (Encoding × String) :=
  [(utf8, "utf_8"), (utf8Marked, "utf_8_sig"), (latin1, "latin_1"), (ascii, "ascii")]

def aliases : List (Encoding × List String) := [
  (utf8, ["utf8", "u8", "utf", "utf8_ucs2", "utf8_ucs4", "cp65001"]),
  (latin1, ["latin1", "latin", "l1", "8859", "cp819", "csisolatin1", "ibm819", "iso8859", "iso8859_1", "iso_8859_1",
    "iso_8859_1_1987", "iso_ir_100"]),
  (ascii, ["us_ascii", "646", "ansi_x3.4_1968", "ansi_x3_4_1968", "ansi_x3.4_1986", "cp367", "csascii", "ibm367",
    "iso646_us", "iso_646.irv_1991", "iso_ir_6", "us"])]

def ofAlias? (plain : Text) : Option Encoding :=
  (aliases.find? fun (_, names) => names.any (·.toText = plain)).map (·.1)

def ofName? (name : Text) : Option Encoding :=
  let plain := plainName name
  -- The encoding of the surroundings is taken to be UTF-8; its name is written in one way only.
  if name = "locale".toText then some utf8
  else
    match ofAlias? plain, ofAlias? (plain.map fun c : CodePoint => if c = '.' then .char '_' else c) with
    | some e, _ | none, some e => some e
    | none, none => (ownNames.find? (·.2.toText = plain)).map (·.1)

/-- Why a name leads to no encoding. The first two keep it from being looked up at all. -/
inductive NameFault where
  | surrogates (f : EncodeFault)
  | nulInName
  | unknown (message : Text)
deriving DecidableEq, Repr

def NameFault.message : NameFault → Text
  | surrogates f => f.message
  | nulInName => "embedded null character".toText
  | unknown message => message

def soundName (name : Text) : Except NameFault Text :=
  match surrogateFault? name with
  | some f => .error (.surrogates f)
  | none => if name.contains (.char '\x00') then .error .nulInName else .ok name

end ScriptMacros.Encoding

namespace ScriptMacros

/-- The encodings of a system by their names, and what it says to a name that is none. -/
abbrev Codecs := Text → Except Text Codec

namespace Codecs

def four : Codecs := fun name =>
  match Encoding.ofName? name with
  | none => .error ("unknown encoding: ".toText ++ name)
  | some e => .ok e.codec

def find (codecs : Codecs) (name : Text) : Except Encoding.NameFault Codec :=
  match Encoding.soundName name with
  | .error f => .error f
  | .ok plain => (codecs plain).mapError .unknown

end Codecs

end ScriptMacros
