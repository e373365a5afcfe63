import BidQuorum.Wire.Format

set_option autoImplicit false

/-! # Heights

The height of a block, as the consensus engine counts it: the first block has height 1. What
validators attach to their votes at one height is used by the proposer of the next. -/

namespace BidQuorum

/-- The height of a block. -/
structure Height where
  number : UInt64
deriving DecidableEq

namespace Height

instance : ToString Height := ⟨fun h => toString h.number.toNat⟩

instance : LE Height := ⟨fun a b => a.number ≤ b.number⟩

instance (a b : Height) : Decidable (a ≤ b) := inferInstanceAs (Decidable (a.number ≤ b.number))

instance : Ord Height := ⟨fun a b => compare a.number b.number⟩

def zero : Height := ⟨0⟩

/-- The height directly below, which height zero lacks. -/
def prev? (h : Height) : Option Height :=
  if h.number = 0 then none else some ⟨h.number - 1⟩

/-- The height whose votes the proposer of `h` collects: the one below, or zero itself. -/
def previous (h : Height) : Height := h.prev?.getD zero

/-- Eight bytes. -/
def format : Format Height := (Format.unsigned 8).map (⟨UInt64.ofNat ·⟩) (·.number.toNat)

end Height

end BidQuorum
