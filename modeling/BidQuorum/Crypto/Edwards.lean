import BidQuorum.Bytes

set_option autoImplicit false

/-! # The curve of the signatures

Signatures live on the twisted Edwards curve `-x² + y² = 1 + d·x²·y²` over the integers modulo
`p = 2²⁵⁵ - 19`. A point is kept as four coordinates with `x = X/Z`, `y = Y/Z` and `x·y = T/Z`, in
which the sum of any two points, equal or not, is given by one formula without division. On the
wire a point is the 255 bits of `y` and one bit for the parity of `x`. -/

namespace BidQuorum.Edwards

/-! ## The field -/

/-- The modulus of the field. -/
def p : Nat := Nat.pow 2 255 - 19

instance : @NeZero Nat Zero.ofOfNat0 p := @NeZero.mk Nat Zero.ofOfNat0 p (by decide)

/-- The integers modulo `p`. -/
abbrev Coordinate := Fin p

/-- The low `count` bits of a number, the least significant first. -/
def bits : (count n : Nat) → List Bool
  | 0, _ => []
  | count + 1, n => (n % 2 == 1) :: bits count (n / 2)

/-- The power of a field element, by squaring and multiplying along the bits of the exponent. -/
def power (x : Coordinate) (exponent : Nat) : Coordinate :=
  (bits 255 exponent).foldr (fun bit r => if bit then r * r * x else r * r) 1

/-- The inverse of a field element, and zero for zero. -/
def inverse (x : Coordinate) : Coordinate := power x (p - 2)

/-- The constant of the curve equation, `-121665/121666`. -/
def d : Coordinate :=
  Fin.ofNat p 37095705934669439343138083508754565189542113879843219016388785533085940283555

/-- A square root of `-1`. -/
def rootOfMinusOne : Coordinate :=
  Fin.ofNat p 19681161376707505956807079304988542015446066515923890162744021073123829784752

/-- Whether a field element counts as negative: its least representative is odd. -/
def isNegative (x : Coordinate) : Bool := x.val % 2 == 1

/-- The square root of `u / v` that is not negative, if there is one. The candidate is
`u·v³·(u·v⁷)^((p-5)/8)`; where it is off, it is off by a root of `-1`. -/
def rootOfRatio? (u v : Coordinate) : Option Coordinate :=
  let cube := v * v * v
  let candidate := u * cube * power (u * cube * cube * v) ((p - 5) / 8)
  let square := v * candidate * candidate
  let root? :=
    if square = u then some candidate
    else if square = -u then some (candidate * rootOfMinusOne)
    else none
  root?.map fun root => if isNegative root then -root else root

/-! ## Points -/

/-- A point, with `x = X/Z`, `y = Y/Z` and `x·y = T/Z`. -/
structure Point where
  X : Coordinate
  Y : Coordinate
  Z : Coordinate
  T : Coordinate
deriving DecidableEq

namespace Point

/-- The neutral point, `x = 0` and `y = 1`. -/
def zero : Point := ⟨0, 1, 1, 0⟩

/-- The point of prime order whose multiples are the public keys. -/
def base : Point where
  X := Fin.ofNat p 15112221349535400772501151409588531511454012693041857206046113283949847762202
  Y := Fin.ofNat p 46316835694926478169428394003475163141307993866256225615783033603165251855960
  Z := 1
  T := Fin.ofNat p 46827403850823179245072216630277197565144205554125654976674165829533817101731

def neg (P : Point) : Point := ⟨-P.X, P.Y, P.Z, -P.T⟩

def add (P Q : Point) : Point :=
  let a := (P.Y - P.X) * (Q.Y - Q.X)
  let b := (P.Y + P.X) * (Q.Y + Q.X)
  let c := P.T * (d + d) * Q.T
  let z := (P.Z + P.Z) * Q.Z
  ⟨(b - a) * (z - c), (z + c) * (b + a), (z - c) * (z + c), (b - a) * (b + a)⟩

def double (P : Point) : Point :=
  let a := P.X * P.X
  let b := P.Y * P.Y
  let c := P.Z * P.Z + P.Z * P.Z
  let e := (P.X + P.Y) * (P.X + P.Y) - a - b
  ⟨e * (b - a - c), (b - a) * (-a - b), (b - a - c) * (b - a), e * (-a - b)⟩

/-- The multiple of a point, by doubling and adding along the bits of `n < 2²⁵⁵`. -/
def multiple (P : Point) (n : Nat) : Point :=
  (bits 255 n).foldr (fun bit Q => if bit then Q.double.add P else Q.double) zero

/-! ## Points as bytes -/

/-- The `y` coordinate, with the parity of `x` in the highest bit. -/
def encode (P : Point) : Bytes :=
  let z := inverse P.Z
  let y := (P.Y * z).val
  littleEndian 32 (if isNegative (P.X * z) then y + Nat.pow 2 255 else y)

/-- The point whose bytes are given. The 255 bits of `y` are taken modulo `p`, and `x = 0` goes
with either parity; there is no point if no `x` fits `y`. -/
def decode? (bytes : Octets 32) : Option Point :=
  let n := ofLittleEndian bytes.bytes
  let y : Coordinate := Fin.ofNat p (n % Nat.pow 2 255)
  match rootOfRatio? (y * y - 1) (d * (y * y) + 1) with
  | none => none
  | some root =>
      let x := if n / Nat.pow 2 255 = 1 then -root else root
      some ⟨x, y, 1, x * y⟩

end Point

end BidQuorum.Edwards
