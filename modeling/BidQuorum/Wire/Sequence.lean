import BidQuorum.Wire.Format
import BidQuorum.TextMap

set_option autoImplicit false

/-! # Lists, texts and maps on the wire

Whatever has no fixed length is preceded by its length, as a number of four bytes: the count of a
list's elements, of a text's bytes, of a map's entries. A text's bytes are all read before they are
checked. A map is written in the order of its keys; it may be read in any order, and of equal keys
the last one counts. -/

namespace BidQuorum.Format

variable {α : Type}

/-- The number that precedes whatever has no fixed length. -/
def length : Format Nat := unsigned 4

/-- Read `n` values in a row. -/
def readMany (f : Format α) : (n : Nat) → Bytes → Except DecodeError (List α × Bytes)
  | 0, bytes => .ok ([], bytes)
  | n + 1, bytes =>
      match f.read bytes with
      | .error e => .error e
      | .ok (a, rest) =>
          match readMany f n rest with
          | .error e => .error e
          | .ok (as, rest) => .ok (a :: as, rest)

/-- The values of a list in a row, after their number. -/
def list (f : Format α) : Format (List α) where
  encode as := length.encode as.length ++ as.flatMap f.encode
  read bytes :=
    match length.read bytes with
    | .error e => .error e
    | .ok (n, rest) => readMany f n rest

/-- Bytes of any number. -/
def blob : Format Bytes := list byte

/-- A text, as its UTF-8 bytes. -/
def text : Format String where
  encode s := blob.encode (Utf8.bytes s)
  read bytes :=
    match blob.read bytes with
    | .error e => .error e
    | .ok (b, rest) =>
        match Utf8.decode b with
        | .error fault => .error (.badText fault)
        | .ok s => .ok (s, rest)

/-- Whether a text's bytes are few enough to be counted. -/
def FitsText (s : String) : Prop := (Utf8.bytes s).length < UInt32.size

instance (s : String) : Decidable (FitsText s) := Nat.decLt _ _

/-- A map from texts, as the list of its entries. -/
def textMap (f : Format α) : Format (TextMap α) :=
  (list (text.pair f)).map TextMap.ofList TextMap.entries

end BidQuorum.Format
