import BidQuorum.Proofs.Consultation
import BidQuorum.Proofs.Drain

set_option autoImplicit false

/-! # What an extension is made of

An extension is made of the pending transactions and of what the modules contribute on account of
them. The bids come from the transactions alone. Of what a module contributes the last success counts,
and neither an earlier success nor a later failure shows (`Validator.find?_extraInfo_attached`).

Together with what the pass does to the mempool and what it publishes, this is all that there is to
extending a vote (`Validator.extend_drains_pending`). -/

namespace BidQuorum

variable {σ : Type}

/-- What the module under a key contributed, in order. -/
def Consultation.contributionsOf (key : String) (calls : List Consultation) : List Bytes :=
  (calls.filterMap contribution?).filterMap fun x => if x.1 = key then some x.2 else none

theorem Consultation.mem_contributionsOf {key : String} {info : Bytes}
    {calls : List Consultation} :
    info ∈ contributionsOf key calls ↔
      ∃ height message, .contribute key height message (.ok info) ∈ calls := by
  simp only [contributionsOf, List.mem_filterMap, Option.ite_none_right_eq_some, Option.some.injEq,
    Prod.exists]
  constructor
  · rintro ⟨_, _, ⟨call, hcall, hcontribution⟩, rfl, rfl⟩
    obtain ⟨key, height, message, _ | info⟩ | _ := call <;> cases hcontribution
    exact ⟨height, message, hcall⟩
  · rintro ⟨height, message, hcall⟩
    exact ⟨key, info, ⟨_, hcall, rfl⟩, rfl, rfl⟩

namespace Validator

variable {v : Validator σ}

/-- An extension carries the last contribution under each key. -/
theorem find?_extraInfo_attached (v : Validator σ) (height : Height) (s : Site σ) (key : String) :
    (v.attached height s).extraInfo.find? key
      = (Consultation.contributionsOf key (v.consultedToExtend height s)).getLast? := by
  rw [(v.gathers_attached height s).kept]
  exact TextMap.find?_ofList_eq_getLast? _ key

end Validator

/-- Modules that accept everything. One of them contributes every price that it is told but one, any
other one fails. -/
def quoting : Conduct where
  contribute key _ message :=
    if key = "oracle" ∧ message.value ≠ [2] then .ok message.value else .error "unavailable"
  judge _ _ := .ok .accept

/-- A signed transaction with two prices and, between them, a bid. -/
def signedPrices : Transaction :=
  .sign [.foreign ⟨"/price", [1]⟩, .bid ⟨"alpha", "addr", "own", [⟨"coin", 5⟩]⟩,
    .foreign ⟨"/price", [2]⟩] [⟨List.replicate 32 7, length_signingSeed⟩]

/-- A site where nothing has been done but to insert it. -/
def pricesSite : Site Unit := PoolCall.after [.insert signedPrices] freshSite

theorem reachable_pricesSite : pricesSite.mempool.Reachable := by
  have hfresh : freshSite.mempool.Reachable := .empty
  exact PoolCall.reachable_after _ hfresh

theorem pendingTxs_pricesSite : pricesSite.mempool.pendingTxs = [signedPrices] := by
  decide +kernel

theorem attached_pricesSite :
    (Validator.following quoting ["oracle", "broken"]).attached ⟨3⟩ pricesSite
      = ⟨⟨3⟩, signedPrices.witness, .ofList [("oracle", [1])]⟩ := by
  rw [Validator.attached_of_follows Validator.follows_following _
    reachable_pricesSite.fits_bids_pendingTxs, pendingTxs_pricesSite]
  decide +kernel

theorem fits_attached_pricesSite :
    ((Validator.following quoting ["oracle", "broken"]).attached ⟨3⟩ pricesSite).Fits := by
  rw [attached_pricesSite]
  decide +kernel

end BidQuorum
