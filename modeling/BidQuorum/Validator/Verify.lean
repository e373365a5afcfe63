import BidQuorum.Validator.Basic

set_option autoImplicit false

/-! # Checking vote extensions

A peer's vote extension is checked by the modules that would have contributed to it. They are asked
in the order of their keys, each about the bytes under its own key, until one does not accept. A key
that no module is registered under is a reason to reject: an extension of a module that this
validator does not run must not be taken for checked. -/

namespace BidQuorum.Validator

variable {σ : Type}

/-- Ask the modules about the contributions under their keys, in turn. -/
def verifyInfo (v : Validator σ) : List (String × Bytes) → Action σ VerifyStatus
  | [] => pure .accept
  | (key, info) :: rest =>
      match v.subscribers.find? key with
      | none => do
          Action.logLine .warn s!"Rejecting vote extension with unknown key {key}"
          return .reject
      | some subscriber => do
          match ← subscriber.verify info with
          | .ok .accept => v.verifyInfo rest
          | .ok status => return status
          | .error reason =>
              Action.logLine .error
                s!"Subscriber {key} failed to verify vote extension: {reason}"
              return .unknown

/-- Check the payload of a peer's vote. -/
def verify (v : Validator σ) (payload : Bytes) : Action σ VerifyStatus := do
  match VoteExtension.ofBytes payload with
  | .error e =>
      Action.logLine .warn s!"Rejecting malformed vote extension: {e.message}"
      Action.publish (.validator (.verifiedExtension none .reject))
      return .reject
  | .ok extension =>
      let status ← v.verifyInfo extension.extraInfo.entries
      Action.publish (.validator (.verifiedExtension (some extension.height) status))
      return status

end BidQuorum.Validator
