import BidQuorum.Proofs.Canonicity
import BidQuorum.Proofs.Contribution

set_option autoImplicit false

/-! # What becomes of an extension that is checked

A check asks the modules about the contributions under their keys, in the order of the keys, whatever
order they had on the way, and it goes on as long as they accept
(`Validator.verify_stops_at_first_objection`).

Making an extension and checking it are two loops that meet in the payload only. What the first one
leaves under the keys is what the second one asks about, and so the extension of a validator passes
its own check if its modules accept what they have contributed (`Validator.own_extension_passes`). -/

namespace BidQuorum

variable {σ : Type}

/-- Whatever has happened before, the module accepts the contribution. -/
def Subscriber.Accepts (m : Subscriber σ) (info : Bytes) : Prop :=
  ∀ s, (m.verify info s).1 = .ok .accept

namespace Validator

variable {v : Validator σ} {payload : Bytes} {extension : VoteExtension}

/-! ## Payloads that are read -/

/-- A payload that is read is checked entry by entry. -/
theorem inspects_of_ofBytes (hread : VoteExtension.ofBytes payload = .ok extension) (s : Site σ) :
    v.Inspects extension.extraInfo.entries (v.consultedToVerify payload s)
      (v.verify payload s).1 := by
  have hinspects := (watches_verify (v := v) payload).journal s
  rwa [hread] at hinspects

/-- A payload that cannot be read is rejected, and nobody is asked. -/
theorem verify_of_ofBytes_error {e : DecodeError}
    (hread : VoteExtension.ofBytes payload = .error e) (s : Site σ) :
    (v.verify payload s).1 = .reject ∧ v.consultedToVerify payload s = [] := by
  have hinspects := (watches_verify (v := v) payload).journal s
  rw [hread] at hinspects
  exact hinspects.symm

/-- If modules are registered under all keys, and each accepts what is under its own, the extension is
accepted, and each of them is asked. -/
theorem verify_of_accepts (hread : VoteExtension.ofBytes payload = .ok extension)
    (h : ∀ x ∈ extension.extraInfo.entries, ∃ m, v.subscribers.find? x.1 = some m ∧ m.Accepts x.2)
    (s : Site σ) :
    (v.verify payload s).1 = .accept ∧
      v.consultedToVerify payload s = extension.extraInfo.entries.map Consultation.accepted := by
  refine (inspects_of_ofBytes hread s).all_accepted (fun x hx => ?_) fun x hx answer hanswer => ?_
  · obtain ⟨m, hm, -⟩ := h x hx
    exact TextMap.mem_keys_of_find? hm
  · obtain ⟨m, hm, haccepts⟩ := h x hx
    obtain ⟨m', s', hm', rfl⟩ := hanswer
    obtain rfl := Option.some.inj (hm.symm.trans hm')
    exact haccepts s'

/-- The entries of a payload that is read are the last contributions that it spells out. -/
theorem exists_spelling_of_ofBytes (hread : VoteExtension.ofBytes payload = .ok extension) :
    ∃ p : Spelling, p.Fits ∧ payload = Spelling.format.encode p ∧
      ∀ x, x ∈ extension.extraInfo.entries ↔ p.last? x.1 = some x.2 := by
  obtain ⟨p, ⟨hpayload, hfits⟩, hp⟩ := VoteExtension.ofBytes_eq_ok_iff.1 hread
  obtain ⟨-, -, hinfo⟩ := Spelling.extension_eq_iff.1 hp
  refine ⟨p, hfits, hpayload, fun x => ?_⟩
  rw [← hinfo, TextMap.find?_eq_some_iff]

/-- Whoever is asked in a check is a module of the validator. -/
theorem gave_of_mem_consultedToVerify (s : Site σ) :
    ∀ call ∈ v.consultedToVerify payload s, v.Gave call := by
  cases hread : VoteExtension.ofBytes payload with
  | error e =>
      rw [(verify_of_ofBytes_error hread s).2]
      nofun
  | ok extension => exact (inspects_of_ofBytes hread s).gave

/-- The outcome is to accept exactly if the payload is read, and everything in it was accepted. -/
theorem verify_eq_accept_iff (s : Site σ) :
    (v.verify payload s).1 = .accept ↔
      ∃ extension, VoteExtension.ofBytes payload = .ok extension ∧
        (∀ x ∈ extension.extraInfo.entries, x.1 ∈ v.subscribers.keys) ∧
        v.consultedToVerify payload s
          = extension.extraInfo.entries.map Consultation.accepted := by
  cases hread : VoteExtension.ofBytes payload with
  | error e => simp [(verify_of_ofBytes_error hread s).1]
  | ok extension =>
      rw [(inspects_of_ofBytes hread s).eq_accept_iff]
      simp only [Except.ok.injEq, exists_eq_left']

/-- If the modules answer the same whenever the same is asked, the outcome is to accept exactly if the
payload is read, and they accept all that is in it. -/
theorem verify_eq_accept_iff_of_follows {c : Conduct} (hc : v.Follows c) (s : Site σ) :
    (v.verify payload s).1 = .accept ↔
      ∃ extension, VoteExtension.ofBytes payload = .ok extension ∧
        ∀ x ∈ extension.extraInfo.entries,
          x.1 ∈ v.subscribers.keys ∧ c.judge x.1 x.2 = .ok .accept := by
  constructor
  · intro haccept
    obtain ⟨extension, hread, hkeys, hcalls⟩ := (verify_eq_accept_iff s).1 haccept
    refine ⟨extension, hread, fun x hx => ⟨hkeys x hx, ?_⟩⟩
    have hasked : Consultation.accepted x ∈ v.consultedToVerify payload s :=
      hcalls ▸ List.mem_map_of_mem hx
    have hanswer := hc.eq_answer (gave_of_mem_consultedToVerify s _ hasked)
    injection hanswer with _ _ hanswer
    exact hanswer.symm
  · rintro ⟨extension, hread, hall⟩
    refine ((inspects_of_ofBytes hread s).all_accepted (fun x hx => (hall x hx).1)
      fun x hx answer hanswer => ?_).1
    injection hc.eq_answer hanswer with _ _ hjudge
    exact hjudge.trans (hall x hx).2

/-- **A check stops at the first objection.** A payload that cannot be read is rejected, and nobody
is asked. Of one that is read, the last contribution under each key is looked at, in ascending order
of the keys, whatever their order in the payload. Some first ones are accepted by the modules under
their keys. Then either none is left, or the next one is under a key without a module, or its module
does not accept it, and this makes the outcome; nobody is asked about those behind. So the outcome is
to accept exactly if the payload is read, a module is registered under every key, and all of them
accept. The mempool is left alone if the modules leave it alone. -/
theorem verify_stops_at_first_objection (v : Validator σ) (payload : Bytes) (s : Site σ) :
    let status := (v.verify payload s).1
    let calls := v.consultedToVerify payload s
    (∀ e, VoteExtension.ofBytes payload = .error e → status = .reject ∧ calls = []) ∧
    (∀ extension, VoteExtension.ofBytes payload = .ok extension →
      let entries := extension.extraInfo.entries
      (entries.map Prod.fst).Pairwise (fun k l => Utf8.bytes k < Utf8.bytes l) ∧
      (∃ p : Spelling, p.Fits ∧ payload = Spelling.format.encode p ∧
        ∀ x, x ∈ entries ↔ p.last? x.1 = some x.2) ∧
      ∃ passed rest last, entries = passed ++ rest ∧ (∀ x ∈ passed, x.1 ∈ v.subscribers.keys) ∧
        calls = passed.map Consultation.accepted ++ last ∧ v.Concludes rest last status) ∧
    (∀ call ∈ calls, v.Gave call) ∧
    (status = .accept ↔ ∃ extension, VoteExtension.ofBytes payload = .ok extension ∧
      (∀ x ∈ extension.extraInfo.entries, x.1 ∈ v.subscribers.keys) ∧
      calls = extension.extraInfo.entries.map Consultation.accepted) ∧
    (∀ c, v.Follows c → (status = .accept ↔
      ∃ extension, VoteExtension.ofBytes payload = .ok extension ∧
        ∀ x ∈ extension.extraInfo.entries,
          x.1 ∈ v.subscribers.keys ∧ c.judge x.1 x.2 = .ok .accept)) ∧
    ((∀ x ∈ v.subscribers.entries, ∀ info, (x.2.verify info).LeavesMempool) →
      (v.verify payload s).2.mempool = s.mempool) := by
  intro status calls
  refine ⟨fun e hread => verify_of_ofBytes_error hread s, fun extension hread => ?_,
    gave_of_mem_consultedToVerify s, verify_eq_accept_iff s,
    fun c hc => verify_eq_accept_iff_of_follows hc s,
    fun h => Action.composable_leavesMempool.verify h payload s⟩
  have hinspects := inspects_of_ofBytes hread (v := v) s
  exact ⟨List.pairwise_map.2 extension.extraInfo.ascending, exists_spelling_of_ofBytes hread,
    hinspects.course⟩

/-- Modules that contribute nothing. One of them accepts everything, and any other one fails. -/
def wavering : Conduct where
  contribute _ _ _ := .error "unavailable"
  judge key _ := if key = "a" then .ok .accept else .error "unavailable"

-- Keys come in any order, one of them twice. The last one is of no module, and is not reached.
example :
    let v : Validator Unit := .following wavering ["a", "b"]
    let payload := Spelling.format.encode
      ⟨⟨1⟩, [], [("c", [9]), ("b", [1]), ("a", [0]), ("b", [2])]⟩
    (v.verify payload freshSite).1 = .unknown ∧
      v.consultedToVerify payload freshSite
        = [.judge "a" [0] (.ok .accept), .judge "b" [2] (.error "unavailable")] := by
  decide +kernel

/-! ## The own extension -/

/-- What is under a key in an extension was contributed, under this key. -/
theorem mem_contributionsOf_of_mem_attached {height : Height} {s : Site σ} {x : String × Bytes}
    (hx : x ∈ (v.attached height s).extraInfo.entries) :
    x.2 ∈ Consultation.contributionsOf x.1 (v.consultedToExtend height s) := by
  have hfind := (TextMap.find?_eq_some_iff _).2 hx
  rw [find?_extraInfo_attached] at hfind
  exact List.mem_of_getLast? hfind

/-- What is contributed under a key comes from a module of the validator. -/
theorem exists_module_of_mem_contributionsOf {height : Height} {s : Site σ} {key : String}
    {info : Bytes} (h : info ∈ Consultation.contributionsOf key (v.consultedToExtend height s)) :
    ∃ m, v.subscribers.find? key = some m := by
  obtain ⟨_, _, hcall⟩ := Consultation.mem_contributionsOf.1 h
  obtain ⟨m, -, hm, -⟩ := (v.gathers_attached height s).gave _ hcall
  exact ⟨m, hm⟩

/-- **An own extension passes.** The payload that a validator makes for its vote carries the last
contribution of each module that made one. If every module accepts whatever it has contributed in the
course of it, the validator accepts the payload, and asks each of these modules once, about its last
contribution. So does any validator that has modules under these keys that accept this. -/
theorem own_extension_passes (v : Validator σ) (height : Height) (s : Site σ)
    (hfits : (v.attached height s).Fits)
    (hown : ∀ x ∈ v.subscribers.entries,
      ∀ info ∈ Consultation.contributionsOf x.1 (v.consultedToExtend height s), x.2.Accepts info) :
    ∃ (payload : Bytes) (last : List (String × Bytes)),
      (v.extendVote height s).1 = .ok payload ∧ (last.map Prod.fst).Nodup ∧
      (∀ x, x ∈ last ↔ (Consultation.contributionsOf x.1
        (v.consultedToExtend height s)).getLast? = some x.2) ∧
      (∀ s' : Site σ, (v.verify payload s').1 = .accept ∧
        v.consultedToVerify payload s' = last.map Consultation.accepted) ∧
      ∀ (τ : Type) (w : Validator τ),
        (∀ x ∈ last, ∃ m, w.subscribers.find? x.1 = some m ∧ m.Accepts x.2) →
        ∀ s' : Site τ, (w.verify payload s').1 = .accept ∧
          w.consultedToVerify payload s' = last.map Consultation.accepted := by
  have hread : VoteExtension.ofBytes (v.attached height s).toBytes = .ok (v.attached height s) :=
    VoteExtension.ofBytes_toBytes hfits
  have haccepts : ∀ x ∈ (v.attached height s).extraInfo.entries,
      ∃ m, v.subscribers.find? x.1 = some m ∧ m.Accepts x.2 := by
    intro x hx
    have hcontributed := mem_contributionsOf_of_mem_attached hx
    obtain ⟨m, hm⟩ := exists_module_of_mem_contributionsOf hcontributed
    exact ⟨m, hm, hown (x.1, m) ((TextMap.find?_eq_some_iff _).1 hm) x.2 hcontributed⟩
  refine ⟨_, (v.attached height s).extraInfo.entries, extendVote_of_fits hfits,
    (v.attached height s).extraInfo.nodup_keys, fun x => ?_, verify_of_accepts hread haccepts,
    fun τ w hw => verify_of_accepts hread hw⟩
  rw [← find?_extraInfo_attached, TextMap.find?_eq_some_iff]

theorem accepts_following {c : Conduct} {keys : List String} {x : String × Subscriber σ}
    (hx : x ∈ (following c keys).subscribers.entries) {info : Bytes}
    (hc : c.judge x.1 info = .ok .accept) : x.2.Accepts info :=
  fun s => (follows_following.verify x hx info s).trans hc

end Validator

/-- Only one of the modules that go by this conduct contributes anything. -/
theorem eq_of_quoting {key : String} {height : Height} {message : ForeignMessage} {info : Bytes}
    (h : quoting.contribute key height message = .ok info) : key = "oracle" := by
  unfold quoting at h
  dsimp only at h
  split at h
  · next hkey => exact hkey.1
  · cases h

/-- Of two modules one contributed a price. This passes with the validator itself, and with one where
other modules are registered beside this one. -/
theorem own_extension_passes_of_signedPrices :
    let v : Validator Unit := .following quoting ["oracle", "broken"]
    let w : Validator Unit := .following quoting ["ledger", "oracle"]
    let calls := v.consultedToExtend ⟨3⟩ pricesSite
    (v.attached ⟨3⟩ pricesSite).Fits ∧
      (∀ x ∈ v.subscribers.entries,
        ∀ info ∈ Consultation.contributionsOf x.1 calls, x.2.Accepts info) ∧
      ∃ payload, (v.extendVote ⟨3⟩ pricesSite).1 = .ok payload ∧
        (v.verify payload freshSite).1 = .accept ∧ (w.verify payload freshSite).1 = .accept ∧
        .accepted ("oracle", [1]) ∈ w.consultedToVerify payload freshSite := by
  intro v w calls
  have hown : ∀ x ∈ v.subscribers.entries,
      ∀ info ∈ Consultation.contributionsOf x.1 calls, x.2.Accepts info :=
    fun x hx info _ => Validator.accepts_following hx rfl
  have hprice : (Consultation.contributionsOf "oracle" calls).getLast? = some [1] := by
    rw [← Validator.find?_extraInfo_attached, attached_pricesSite]
    decide +kernel
  have hregistered : (w.subscribers.find? "oracle").isSome := by decide +kernel
  obtain ⟨m, hm⟩ := Option.isSome_iff_exists.1 hregistered
  obtain ⟨payload, last, hpayload, -, hlast, haccept, hother⟩ :=
    v.own_extension_passes ⟨3⟩ pricesSite fits_attached_pricesSite hown
  have hknown : ∀ x ∈ last, ∃ m, w.subscribers.find? x.1 = some m ∧ m.Accepts x.2 := by
    intro x hx
    obtain ⟨height, message, hcall⟩ :=
      Consultation.mem_contributionsOf.1 (List.mem_of_getLast? ((hlast x).1 hx))
    have hgave := (v.gathers_attached ⟨3⟩ pricesSite).gave _ hcall
    injection Validator.follows_following.eq_answer hgave with _ _ _ hanswer
    have hkey : x.1 = "oracle" := eq_of_quoting hanswer.symm
    exact ⟨m, hkey ▸ hm, Validator.accepts_following ((TextMap.find?_eq_some_iff _).1 hm) rfl⟩
  obtain ⟨hw, hcalls⟩ := hother Unit w hknown freshSite
  refine ⟨fits_attached_pricesSite, hown, payload, hpayload, (haccept freshSite).1, hw, ?_⟩
  rw [hcalls]
  exact List.mem_map_of_mem ((hlast ("oracle", [1])).2 hprice)

end BidQuorum
