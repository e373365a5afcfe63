import BidQuorum.Site
import BidQuorum.Settings
import BidQuorum.TxCodec

set_option autoImplicit false

/-! # Validators

A validator is put together from its settings, the codec of its application, the modules that take
part in its vote extensions, and possibly a module that reshapes its proposals. The modules are
free to act at the site; what they answer is a value or the text of an error. -/

namespace BidQuorum

/-- A module that takes part in vote extensions. -/
structure Subscriber (σ : Type) where
  /-- What the module contributes to the extension at a height, on account of a message that is not
  a bid. -/
  extend : Height → ForeignMessage → Action σ (Except String Bytes)
  /-- What the module thinks of the contribution of a peer. -/
  verify : Bytes → Action σ (Except String VerifyStatus)

/-- Turns the ready transactions into those to propose at a height. -/
abbrev ProposalBuilder (σ : Type) :=
  Height → List Transaction → Action σ (Except String (List Transaction))

structure Validator (σ : Type) where
  settings : Settings := {}
  codec : TxCodec := .standard
  /-- The modules that take part in vote extensions, each under its key. -/
  subscribers : TextMap (Subscriber σ) := .empty
  builder : Option (ProposalBuilder σ) := none

namespace Validator

variable {σ : Type}

/-- Register a module under a key, in place of any module registered under it before. -/
def subscribe (v : Validator σ) (key : String) (subscriber : Subscriber σ) : Validator σ :=
  { v with subscribers := v.subscribers.insert key subscriber }

end Validator

end BidQuorum
