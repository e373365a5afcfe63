import BidQuorum.Bytes
import BidQuorum.Text.Utf8

set_option autoImplicit false

/-! # Wire formats

A format says how the values of a type are written as bytes and how they are read back. Reading
goes from left to right and stops at the first fault, so it works on the front of a byte string and
leaves the rest to whatever follows; `Format.decode` asks in addition that nothing is left.

Not every value can be written: a list, a text or a map of `2³²` elements or more is too long for its
length to be counted in four bytes. `Format.encode` gives bytes for every value, those of too long a
one with a length cut short; `Format.write` gives them only where a value *fits*, and an error
otherwise.

This file holds the type and the formats of single values: fixed bytes, numbers, pairs and tagged
alternatives. `Wire/Sequence.lean` builds lists, texts and maps from them. -/

namespace BidQuorum

/-- Why bytes could not be read as a value. -/
inductive DecodeError where
  /-- The bytes end before the value does. -/
  | endOfInput
  /-- Bytes remain after the value. -/
  | trailingBytes
  /-- No alternative has this tag. -/
  | badTag (tag : UInt8)
  /-- A text's bytes are not UTF-8. -/
  | badText (fault : Utf8.Fault)
deriving DecidableEq

def DecodeError.message : DecodeError → String
  | .endOfInput => "Unexpected length of input"
  | .trailingBytes => "Not all bytes read"
  | .badTag tag => s!"Unexpected variant index: {tag.toNat}"
  | .badText fault => fault.message

/-- How values are written, and how one is read from the front of a byte string. -/
structure Format (α : Type) where
  encode : α → Bytes
  read : Bytes → Except DecodeError (α × Bytes)

namespace Format

variable {α β : Type}

/-- The value that the bytes hold, with nothing after it. -/
def decode (f : Format α) (bytes : Bytes) : Except DecodeError α :=
  match f.read bytes with
  | .error e => .error e
  | .ok (a, []) => .ok a
  | .ok (_, _ :: _) => .error .trailingBytes

/-- Why what is too long cannot be written. -/
def tooLong : String := "invalid input parameter"

/-- The bytes that a value is written as, if it fits. -/
def write (f : Format α) (Fits : α → Prop) [DecidablePred Fits] (a : α) : Except String Bytes :=
  if Fits a then .ok (f.encode a) else .error tooLong

section Write

variable {f : Format α} {Fits : α → Prop} [DecidablePred Fits] {a : α}

theorem write_of_fits (ha : Fits a) : f.write Fits a = .ok (f.encode a) := if_pos ha

theorem write_of_not_fits (ha : ¬ Fits a) : f.write Fits a = .error tooLong := if_neg ha

theorem write_eq_ok_iff {bytes : Bytes} :
    f.write Fits a = .ok bytes ↔ Fits a ∧ bytes = f.encode a := by
  by_cases ha : Fits a
  · simp [write_of_fits ha, ha, eq_comm]
  · simp [write_of_not_fits ha, ha]

end Write

/-! ## Single values -/

/-- Exactly `n` bytes, written as they are. -/
def octets (n : Nat) : Format (Octets n) where
  encode := Octets.bytes
  read bytes :=
    if h : (bytes.take n).length = n then .ok (⟨bytes.take n, h⟩, bytes.drop n)
    else .error .endOfInput

/-- A single byte. -/
def byte : Format UInt8 where
  encode b := [b]
  read
    | [] => .error .endOfInput
    | b :: rest => .ok (b, rest)

/-- The same bytes, standing for the values of another type. -/
def map (f : Format α) (forth : α → β) (back : β → α) : Format β where
  encode b := f.encode (back b)
  read bytes :=
    match f.read bytes with
    | .error e => .error e
    | .ok (a, rest) => .ok (forth a, rest)

/-- An unsigned number of `width` bytes, least significant first. A number that needs more bytes
loses its high ones. -/
def unsigned (width : Nat) : Format Nat :=
  (octets width).map (ofLittleEndian ·.bytes)
    (fun n => ⟨littleEndian width n, length_littleEndian width n⟩)

/-! ## Compound values -/

/-- One value after another. -/
def pair (f : Format α) (g : Format β) : Format (α × β) where
  encode x := f.encode x.1 ++ g.encode x.2
  read bytes :=
    match f.read bytes with
    | .error e => .error e
    | .ok (a, rest) =>
        match g.read rest with
        | .error e => .error e
        | .ok (b, rest) => .ok ((a, b), rest)

/-- One of two kinds of value, after a tag byte that says which: 0 or 1. -/
def either (f : Format α) (g : Format β) : Format (α ⊕ β) where
  encode
    | .inl a => 0 :: f.encode a
    | .inr b => 1 :: g.encode b
  read
    | [] => .error .endOfInput
    | tag :: rest =>
        if tag = 0 then
          match f.read rest with
          | .error e => .error e
          | .ok (a, rest) => .ok (.inl a, rest)
        else if tag = 1 then
          match g.read rest with
          | .error e => .error e
          | .ok (b, rest) => .ok (.inr b, rest)
        else .error (.badTag tag)

end Format

end BidQuorum
