import ScriptMacros.Text.Basic

namespace ScriptMacros

inductive Binary64 where
  | nan
  | infinity (negative : Bool)
  | finite (negative : Bool) (m : Nat) (q : Int)
deriving DecidableEq, Repr

namespace Binary64

def roundDiv (num den : Nat) : Nat :=
  let d := num / den
  let twice := 2 * (num % den)
  if twice < den ∨ (twice = den ∧ d % 2 = 0) then d else d + 1

def raise (base : Nat) (exponent : Int) : Nat := Nat.pow base exponent.toNat

def magnitudeBound : Nat := 0x20000000000000

def atScale (num den : Nat) (q : Int) : Nat := roundDiv (num * raise 2 (-q)) (den * raise 2 q)

def leastExponent : Int := -1074

def greatestExponent : Int := 971

def nearest (negative : Bool) (num den : Nat) : Binary64 :=
  if num = 0 then finite negative 0 leastExponent
  else
    let q := max ((num.log2 : Int) - den.log2 - 53) leastExponent
    let q := if atScale num den q < magnitudeBound then q else q + 1
    let m := atScale num den q
    let (m, q) := if m < magnitudeBound then (m, q) else (m / 2, q + 1)
    if greatestExponent < q then infinity negative else finite negative m q

def ofDecimal (negative : Bool) (digits : Nat) (exponent : Int) : Binary64 :=
  let size : Int := (Nat.toDigits 10 digits).length + exponent
  if digits = 0 ∨ size < -400 then finite negative 0 leastExponent
  else if 400 < size then infinity negative
  else nearest negative (digits * raise 10 exponent) (raise 10 (-exponent))

def isZero : Binary64 → Bool
  | finite _ m _ => m = 0
  | _ => false

structure Decimal where
  digits : Nat
  exponent : Int
deriving DecidableEq, Repr

def compareScaled (a : Nat) (i : Int) (b : Nat) (j : Int) : Ordering :=
  compare (a * raise 10 i * raise 2 (-j)) (b * raise 2 j * raise 10 (-i))

/-- Whether a decimal number reads back as `m * 2 ^ q`: it lies between the middles to both neighbours, or on
one of them when `m` is even. Below a power of two the neighbour is half as far away. -/
def readsBack (m : Nat) (q : Int) (d : Decimal) : Bool :=
  let low := if 2 * m = magnitudeBound ∧ leastExponent < q then 4 * m - 1 else 4 * m - 2
  let above := compareScaled d.digits d.exponent low (q - 2)
  let below := compareScaled d.digits d.exponent (4 * m + 2) (q - 2)
  let ends := m % 2 == 0
  (above == .gt || (ends && above == .eq)) && (below == .lt || (ends && below == .eq))

def scale (m : Nat) (q : Int) : Int :=
  let size (n : Nat) : Int := (Nat.toDigits 10 n).length
  let k := size (m * raise 2 q) - size (raise 2 (-q))
  if compareScaled 1 k m q == .gt then k else k + 1

def withDigits? (m : Nat) (q : Int) (count : Nat) : Option Decimal :=
  let exponent := scale m q - count
  let down := m * raise 2 q * raise 10 (-exponent) / (raise 2 (-q) * raise 10 exponent)
  let lower : Decimal := ⟨down, exponent⟩
  let upper : Decimal := ⟨down + 1, exponent⟩
  match readsBack m q lower, readsBack m q upper with
  | false, false => none
  | true, false => some lower
  | false, true => some upper
  -- Both read back, so the nearer one is taken.
  | true, true =>
    match compareScaled (2 * down + 1) exponent (2 * m) q with
    | .gt => some lower
    | .lt => some upper
    | .eq => some (if down % 2 = 0 then lower else upper)

def shortest (m : Nat) (q : Int) : Decimal :=
  ((List.range 17).findSome? fun n => withDigits? m q (n + 1)).getD
    ⟨m * raise 2 q * raise 5 (-q), -(-q).toNat⟩

def layOut (d : Decimal) : Text :=
  let digits := Text.ofNat d.digits
  let point : Int := digits.length + d.exponent
  let digits := (digits.reverse.dropWhile (· = .char '0')).reverse
  if -4 < point ∧ point ≤ 16 then
    if point ≤ 0 then "0.".toText ++ List.replicate (-point).toNat (.char '0') ++ digits
    else
      let whole := digits.take point.toNat
      let fraction := digits.drop point.toNat
      whole ++ List.replicate (point.toNat - whole.length) (.char '0') ++
        .char '.' :: (if fraction = [] then [.char '0'] else fraction)
  else
    let fraction := digits.drop 1
    let power := Text.ofNat (point - 1).natAbs
    digits.take 1 ++ (if fraction = [] then [] else .char '.' :: fraction) ++
      .char 'e' :: (if point - 1 < 0 then .char '-' else .char '+') ::
        List.replicate (2 - power.length) (.char '0') ++ power

def toText : Binary64 → Text
  | nan => "nan".toText
  | infinity negative => (if negative then "-inf" else "inf").toText
  | finite negative m q =>
    (if negative then [.char '-'] else []) ++ if m = 0 then "0.0".toText else layOut (shortest m q)

end Binary64

end ScriptMacros
