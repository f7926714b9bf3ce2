import ScriptMacros.Encoding.Utf8
import ScriptMacros.Text.Quoted

namespace ScriptMacros

inductive Encoding where
  | utf8
  | utf8Marked
  | latin1
  | ascii
deriving DecidableEq, Repr

namespace Encoding

def shownName : Encoding → Text
  | utf8 | utf8Marked => "utf-8".toText
  | latin1 => "latin-1".toText
  | ascii => "ascii".toText

structure DecodeFault where
  encoding : Text
  byte : UInt8
  start : Nat
  length : Nat
  reason : Text
deriving DecidableEq, Repr

def DecodeFault.message (f : DecodeFault) : Text :=
  let place :=
    if f.length = 1 then "byte 0x".toText ++ Text.hex 2 f.byte.toNat ++ " in position ".toText ++ Text.ofNat f.start
    else "bytes in position ".toText ++ Text.ofNat f.start ++ .char '-' :: Text.ofNat (f.start + f.length - 1)
  .char '\x27' :: f.encoding ++ "' codec can't decode ".toText ++ place ++ ": ".toText ++ f.reason

def reasonText : Utf8.Reason → Text
  | .startByte => "invalid start byte".toText
  | .continuation => "invalid continuation byte".toText
  | .truncated => "unexpected end of data".toText

def decodeUtf8 (bytes : List UInt8) : Except DecodeFault Text :=
  match Utf8.decode bytes with
  | .ok cs => .ok (cs.map .char)
  | .error f => .error ⟨utf8.shownName, bytes.getD f.start 0, f.start, f.length, reasonText f.reason⟩

def mark : List UInt8 := [0xef, 0xbb, 0xbf]

def decode : Encoding → List UInt8 → Except DecodeFault Text
  | utf8, bytes => decodeUtf8 bytes
  | utf8Marked, bytes =>
    if bytes.length < 3 ∧ bytes.isPrefixOf mark then .ok []
    else decodeUtf8 (if mark.isPrefixOf bytes then bytes.drop 3 else bytes)
  | latin1, bytes => .ok (bytes.map fun b => .char (Char.ofNat b.toNat))
  | ascii, bytes =>
    match bytes.findIdx? (0x80 ≤ ·) with
    | some i => .error ⟨ascii.shownName, bytes.getD i 0, i, 1, "ordinal not in range(128)".toText⟩
    | none => .ok (bytes.map fun b => .char (Char.ofNat b.toNat))

structure EncodeFault where
  encoding : Encoding
  start : Nat
  refused : Text
  reason : Text
deriving DecidableEq, Repr

def EncodeFault.message (f : EncodeFault) : Text :=
  let place :=
    match f.refused with
    | [c] => "character '".toText ++ Text.byCode c.toNat ++ "' in position ".toText ++ Text.ofNat f.start
    | cs => "characters in position ".toText ++ Text.ofNat f.start ++ .char '-' :: Text.ofNat (f.start + cs.length - 1)
  .char '\x27' :: f.encoding.shownName ++ "' codec can't encode ".toText ++ place ++ ": ".toText ++ f.reason

def noSurrogates : Text := "surrogates not allowed".toText

def surrogateFault? (t : Text) : Option EncodeFault :=
  (t.findIdx? CodePoint.isSurrogate).map fun i =>
    ⟨utf8, i, (t.drop i).takeWhile CodePoint.isSurrogate, noSurrogates⟩

def encodeBelow (e : Encoding) (bound : Nat) (t : Text) : Except EncodeFault (List UInt8) :=
  match t.findIdx? (bound ≤ ·.toNat) with
  | some i =>
    let refused := (t.drop i).takeWhile (bound ≤ ·.toNat)
    .error ⟨e, i, refused, "ordinal not in range(".toText ++ Text.ofNat bound ++ [.char ')']⟩
  | none => .ok (t.map fun c => UInt8.ofNat c.toNat)

def encodeUtf8 (t : Text) : Except EncodeFault (List UInt8) :=
  match surrogateFault? t with
  | some f => .error f
  | none => .ok (Utf8.encode (t.filterMap CodePoint.character?))

def encode : Encoding → Text → Except EncodeFault (List UInt8)
  | utf8, t => encodeUtf8 t
  | utf8Marked, t => (encodeUtf8 t).map (mark ++ ·)
  | latin1, t => encodeBelow latin1 256 t
  | ascii, t => encodeBelow ascii 128 t

def unifyLineEnds : Text → Text
  | [] => []
  | c :: t =>
    if c = '\r' then (if t.head? = some (.char '\n') then unifyLineEnds t else .char '\n' :: unifyLineEnds t)
    else c :: unifyLineEnds t

end Encoding

inductive Codec.Fault where
  | bytes (f : Encoding.DecodeFault)
  | other (message : Text)
deriving DecidableEq, Repr

def Codec.Fault.message : Codec.Fault → Text
  | bytes f => f.message
  | other message => message

/-- What a system does in an encoding that it knows. -/
structure Codec where
  decode : List UInt8 → Except Codec.Fault Text
  encode : Text → Except Text (List UInt8)

def Encoding.codec (e : Encoding) : Codec where
  decode bytes := (e.decode bytes).mapError .bytes
  encode t := (e.encode t).mapError EncodeFault.message

end ScriptMacros
