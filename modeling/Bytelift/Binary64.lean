/-! Numbers of 53 significant bits. Every quotient has a nearest one, and every one is written with the
fewest digits that are nearer to it than to any other. All arithmetic is on whole numbers. -/

namespace Bytelift

/-- A size of `mantissa * 2 ^ exponent` with a sign; a size beyond all of these is infinite. -/
structure Binary64 where
  negative : Bool
  /-- None if infinite. -/
  size : Option (Nat × Int)
  deriving DecidableEq, Repr, Inhabited

namespace Binary64

def twoTo (k : Nat) : Nat := Nat.pow 2 k

def tenTo (k : Nat) : Nat := Nat.pow 10 k

/-- A quotient as a whole number; a half goes to the even neighbour. -/
def roundedQuotient (n d : Nat) : Nat :=
  let low := n / d
  let excess := 2 * (n % d)
  if excess < d || (excess = d && low % 2 = 0) then low else low + 1

/-- The quotient of `n * 2 ^ (-q)` and `d`, as the two whole numbers to divide. -/
def scaled (n d : Nat) (q : Int) : Nat × Nat := (n * twoTo (-q).toNat, d * twoTo q.toNat)

def leastExponent : Int := -1074

def greatestExponent : Int := 971

/-- The mantissa and exponent nearest to a quotient. -/
def nearest? (n d : Nat) : Option (Nat × Int) :=
  if n = 0 then some (0, leastExponent)
  else
    let q := max ((n.log2 : Int) - d.log2 - 53) leastExponent
    let (a, b) := scaled n d q
    let q := if a / b < twoTo 53 then q else q + 1
    let (a, b) := scaled n d q
    let m := roundedQuotient a b
    let (m, q) := if m = twoTo 53 then (twoTo 52, q + 1) else (m, q)
    if q ≤ greatestExponent then some (m, q) else none

/-- The whole number that stands for a whole number here: itself, if it is small, or else the nearest. One
beyond the range has none. -/
def nearestWhole? (n : Int) : Option Int :=
  let m := n.natAbs
  if m < twoTo 53 then some n
  else
    let unit := twoTo (m.log2 - 52)
    let rounded := roundedQuotient m unit * unit
    if rounded < twoTo 1024 then some (n.sign * rounded) else none

def ofInt (n : Int) : Binary64 := ⟨n < 0, nearest? n.natAbs 1⟩

/-- The number nearest to `digits * 10 ^ exponent`. Exponents that decide alone are not computed with. -/
def ofDecimal (digits : Nat) (exponent : Int) : Binary64 :=
  let width : Int := (Nat.toDigits 10 digits).length
  if digits = 0 || width + exponent < -330 then ⟨false, some (0, leastExponent)⟩
  else if 330 < width + exponent then ⟨false, none⟩
  else ⟨false, nearest? (digits * tenTo exponent.toNat) (tenTo (-exponent).toNat)⟩

def negate (x : Binary64) : Binary64 := { x with negative := !x.negative }

def isZero (x : Binary64) : Bool := x.size.any fun (m, _) => m = 0

def whole? (x : Binary64) : Option Int :=
  x.size.bind fun (m, q) =>
    let n := m * twoTo q.toNat
    let d := twoTo (-q).toNat
    if n % d = 0 then some (if x.negative then -(n / d : Nat) else (n / d : Nat)) else none

/-- The least `k` with `n / d < 10 ^ k`, for a quotient within range. -/
def pointAfter (n d : Nat) : Int :=
  if d ≤ n then (Nat.toDigits 10 (n / d)).length
  else -(((List.range 330).find? fun j => d ≤ n * tenTo (j + 1)).getD 0 : Nat)

/-- The digits on a grid of that many, if one of the two neighbours on it is nearest to this size only. -/
def digitsOn? (m : Nat) (q : Int) (point : Int) (count : Nat) : Option Nat :=
  let grid : Int := point - count
  let n := m * twoTo q.toNat * tenTo (-grid).toNat
  let d := twoTo (-q).toNat * tenTo grid.toNat
  let readsBack (k : Nat) : Bool :=
    nearest? (k * tenTo grid.toNat) (tenTo (-grid).toNat) = some (m, q)
  let low := n / d
  match readsBack low, readsBack (low + 1) with
  | true, true => some (roundedQuotient n d)
  | true, false => some low
  | false, true => some (low + 1)
  | false, false => none

def dropZeros (digits : List Char) : List Char := (digits.reverse.dropWhile (· == '0')).reverse

/-- The fewest digits, without trailing zeros, and where the point stands among them. -/
def shortest (m : Nat) (q : Int) : List Char × Int :=
  let point := pointAfter (m * twoTo q.toNat) (twoTo (-q).toNat)
  let found := (List.range 17).findSome? fun i =>
    (digitsOn? m q point (i + 1)).map fun k => (Nat.toDigits 10 k, i + 1)
  match found with
  | none => (['0'], 1)
  | some (digits, count) => (dropZeros digits, point + digits.length - count)

/-- Digits with the point in its place. Far from the point an exponent of at least two digits is written;
a whole number ends in the given text. -/
def layOut (ending : String) (digits : List Char) (point : Int) : String :=
  let text := String.ofList
  if -4 < point && point ≤ 16 then
    if point ≤ 0 then "0." ++ text (List.replicate (-point).toNat '0' ++ digits)
    else if digits.length ≤ point.toNat then
      text (digits ++ List.replicate (point.toNat - digits.length) '0') ++ ending
    else text (digits.take point.toNat) ++ "." ++ text (digits.drop point.toNat)
  else
    let exponent := (point - 1).natAbs
    let more := digits.drop 1
    text (digits.take 1) ++ (if more.isEmpty then "" else "." ++ text more) ++
      (if point - 1 < 0 then "e-" else "e+") ++ (if exponent < 10 then "0" else "") ++ toString exponent

def write (ending : String) (x : Binary64) : String :=
  (if x.negative then "-" else "") ++
    match x.size with
    | none => "inf"
    | some (m, q) =>
      if m = 0 then "0" ++ ending
      else
        let (digits, point) := shortest m q
        layOut ending digits point

end Binary64

end Bytelift
