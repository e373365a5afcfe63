import BidQuorum.Bytes

set_option autoImplicit false

/-! # Base64

Hashes, keys and signatures are shown in the standard base64 alphabet, without padding: three bytes
become four digits, and a last group of one or two bytes becomes two or three. -/

namespace BidQuorum.Base64

/-- The 64 digits in order of their value. -/
def alphabet : List Char :=
  "ABCDEFGHIJKLMNOPQRSTUVWXYZabcdefghijklmnopqrstuvwxyz0123456789+/".toList

/-- The digit for the six low bits of `n`. -/
def digit (n : Nat) : Char := alphabet.getD (n % 64) 'A'

/-- The digits of a sequence of bytes. -/
def digits : Bytes → List Char
  | a :: b :: c :: rest =>
      let n := a.toNat * 65536 + b.toNat * 256 + c.toNat
      digit (n / 262144) :: digit (n / 4096) :: digit (n / 64) :: digit n :: digits rest
  | [a, b] =>
      let n := a.toNat * 1024 + b.toNat * 4
      [digit (n / 4096), digit (n / 64), digit n]
  | [a] =>
      let n := a.toNat * 16
      [digit (n / 64), digit n]
  | [] => []

def encode (bytes : Bytes) : String := String.ofList (digits bytes)

/-- The first seven digits, enough to tell values apart in a log. -/
def short (bytes : Bytes) : String := String.ofList ((digits bytes).take 7)

end BidQuorum.Base64
