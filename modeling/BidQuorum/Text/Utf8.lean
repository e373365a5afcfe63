import BidQuorum.Bytes

set_option autoImplicit false

/-! # Text as bytes

Names, owners and keys are texts, and on the wire a text is its UTF-8 bytes. Bytes that are not
UTF-8 are refused, and the refusal says where the first character that cannot be read begins and
how many of its bytes were good. Texts are also ordered by these bytes. -/

namespace BidQuorum.Utf8

/-- The UTF-8 bytes of a text. -/
def bytes (s : String) : Bytes := s.toUTF8.data.toList

/-- Why bytes are not a text. `start` is the place of the first byte of the first character that
cannot be read. -/
inductive Fault where
  /-- The `length` bytes from `start` begin no character. -/
  | invalid (length start : Nat)
  /-- The bytes end inside the character that begins at `start`. -/
  | incomplete (start : Nat)
deriving DecidableEq

def Fault.message : Fault → String
  | .invalid length start => s!"invalid utf-8 sequence of {length} bytes from index {start}"
  | .incomplete start => s!"incomplete utf-8 byte sequence from index {start}"

/-! ## Locating the fault -/

/-- The ranges that the bytes after a first byte must lie in, or `none` if no character begins with
that byte. The narrower second ranges leave out overlong forms, surrogates and code points past the
last one. -/
def continuation (first : UInt8) : Option (List (UInt8 × UInt8)) :=
  if first < 0x80 then some []
  else if first < 0xC2 then none
  else if first < 0xE0 then some [(0x80, 0xBF)]
  else if first = 0xE0 then some [(0xA0, 0xBF), (0x80, 0xBF)]
  else if first = 0xED then some [(0x80, 0x9F), (0x80, 0xBF)]
  else if first < 0xF0 then some [(0x80, 0xBF), (0x80, 0xBF)]
  else if first = 0xF0 then some [(0x90, 0xBF), (0x80, 0xBF), (0x80, 0xBF)]
  else if first < 0xF4 then some [(0x80, 0xBF), (0x80, 0xBF), (0x80, 0xBF)]
  else if first = 0xF4 then some [(0x80, 0x8F), (0x80, 0xBF), (0x80, 0xBF)]
  else none

/-- Walk over the bytes from place `index` on. `owed` holds the ranges of the bytes still missing
from the character that began at `start`; between characters it is empty. -/
def faultFrom (index start : Nat) : (owed : List (UInt8 × UInt8)) → Bytes → Option Fault
  | [], [] => none
  | _ :: _, [] => some (.incomplete start)
  | [], b :: rest =>
      match continuation b with
      | none => some (.invalid 1 index)
      | some owed => faultFrom (index + 1) index owed rest
  | (low, high) :: owed, b :: rest =>
      if low ≤ b ∧ b ≤ high then faultFrom (index + 1) start owed rest
      else some (.invalid (index - start) start)

/-- The first fault of the bytes, if they are no text. -/
def fault? (bytes : Bytes) : Option Fault := faultFrom 0 0 [] bytes

/-! ## Reading -/

/-- The text that the bytes spell, or their first fault. -/
def decode (bytes : Bytes) : Except Fault String :=
  match String.fromUTF8? ⟨bytes.toArray⟩ with
  | some s => .ok s
  | none => .error ((fault? bytes).getD (.incomplete 0))

theorem decode_bytes (s : String) : decode (bytes s) = .ok s := by
  have h : String.fromUTF8? ⟨(bytes s).toArray⟩ = some s := by
    simp only [bytes, Array.toArray_toList, String.fromUTF8?]
    exact dif_pos s.isValidUTF8
  simp [decode, h]

theorem eq_bytes_of_decode {b : Bytes} {s : String} (h : decode b = .ok s) : b = bytes s := by
  unfold decode at h
  split at h
  · next t ht =>
      cases h
      unfold String.fromUTF8? at ht
      split at ht
      · cases ht
        simp [bytes, String.fromUTF8]
      · cases ht
  · cases h

/-- Two texts with the same bytes are the same text. -/
theorem bytes_inj {s t : String} : bytes s = bytes t ↔ s = t := by
  constructor
  · intro h
    have hs := decode_bytes s
    rw [h, decode_bytes] at hs
    cases hs
    rfl
  · exact congrArg bytes

/-! ## Order -/

/-- How two texts compare: by their bytes, the first difference deciding. -/
def compare (s t : String) : Ordering := compareOfLessAndEq (bytes s) (bytes t)

end BidQuorum.Utf8
