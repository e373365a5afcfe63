import BidQuorum.Proofs.Formats
import BidQuorum.Proofs.Witness

set_option autoImplicit false

/-! # Signers

A transaction may carry signatures that do not verify: of keys that are no points, over other bytes, or
plainly made up. They change nothing about who has signed it, wherever they stand, nor about the account
that a mempool enters it under. What is left are the signatures that verify, each of which stands for the
account of its key. So a transaction that was signed by some accounts goes by these accounts, in order,
whatever is added to it on its way (`verified_signers_amid_junk`). -/

namespace BidQuorum

/-! ## Signatures that verify -/

/-- A public key is known by its bytes. -/
theorem Ed25519.PublicKey.ext_octets {a b : PublicKey} (h : a.octets = b.octets) : a = b := by
  obtain ⟨octets, point, hpoint⟩ := a
  obtain ⟨octets', point', hpoint'⟩ := b
  obtain rfl : octets = octets' := h
  obtain rfl : point = point' := Option.some.inj (hpoint.symm.trans hpoint')
  rfl

theorem Ed25519.PublicKey.ofOctets?_eq_some_iff {octets : Octets 32} {key : PublicKey} :
    ofOctets? octets = some key ↔ key.octets = octets := by
  unfold ofOctets?
  split
  · next point hpoint =>
      constructor
      · intro h
        rw [← Option.some.inj h]
      · intro h
        exact congrArg some (ext_octets h.symm)
  · next hnone =>
      refine ⟨nofun, fun h => ?_⟩
      have hpoint := key.decode_eq
      rw [h, hnone] at hpoint
      exact absurd hpoint nofun

namespace TxSignature

variable {message : Bytes} {messages : List Message} {s : TxSignature} {signer : Signer}

/-- The signature is one of the message: its key stands for a point, and verification accepts it under
that key. -/
def Verifies (message : Bytes) (s : TxSignature) : Prop :=
  ∃ key : Ed25519.PublicKey, key.octets = s.key ∧ Ed25519.verify key message s.signature.octets

theorem signer?_eq_some_iff :
    s.signer? message = some signer ↔ signer.key.octets = s.key ∧
      Ed25519.verify signer.key message s.signature.octets ∧
      signer.address = .ofKey signer.key := by
  unfold signer?
  split
  · next hnone =>
      refine ⟨nofun, fun h => ?_⟩
      have hsome := Ed25519.PublicKey.ofOctets?_eq_some_iff.2 h.1
      exact absurd (hnone.symm.trans hsome) nofun
  · next key hkey =>
      have hoctets := Ed25519.PublicKey.ofOctets?_eq_some_iff.1 hkey
      have hsame : signer.key.octets = s.key → signer.key = key := fun h =>
        Ed25519.PublicKey.ext_octets (h.trans hoctets.symm)
      split
      · next hverify =>
          constructor
          · intro h
            rw [← Option.some.inj h]
            exact ⟨hoctets, hverify, rfl⟩
          · rintro ⟨h, -, haddress⟩
            rw [← hsame h, ← haddress]
      · next hverify =>
          refine ⟨nofun, fun h => absurd ?_ hverify⟩
          rw [← hsame h.1]
          exact h.2.1

/-- Exactly the signatures that verify stand for a signer. -/
theorem verifies_iff : s.Verifies message ↔ (s.signer? message).isSome := by
  rw [Option.isSome_iff_exists]
  constructor
  · rintro ⟨key, hkey, hverify⟩
    exact ⟨⟨.ofKey key, key⟩, signer?_eq_some_iff.2 ⟨hkey, hverify, rfl⟩⟩
  · rintro ⟨signer, hsigner⟩
    obtain ⟨hkey, hverify, -⟩ := signer?_eq_some_iff.1 hsigner
    exact ⟨signer.key, hkey, hverify⟩

instance (message : Bytes) : DecidablePred (Verifies message) := fun _ =>
  decidable_of_iff' _ verifies_iff

/-- The signature is one of the messages: they can be written, and it verifies over their bytes. -/
def Signs (messages : List Message) (s : TxSignature) : Prop :=
  Message.AllFit messages ∧ s.Verifies (Transaction.signBytesOf messages)

instance (messages : List Message) : DecidablePred (Signs messages) := fun _ =>
  inferInstanceAs (Decidable (_ ∧ _))

/-- The account that a signature of the messages stands for, if it is one. -/
def signerOf? (messages : List Message) (s : TxSignature) : Option Signer :=
  if Message.AllFit messages then s.signer? (Transaction.signBytesOf messages) else none

/-- Exactly the signatures of the messages stand for a signer. -/
theorem signs_iff : s.Signs messages ↔ (s.signerOf? messages).isSome := by
  rw [Signs, signerOf?, verifies_iff]
  split
  · next h => exact and_iff_right h
  · next h => exact ⟨fun hs => absurd hs.1 h, nofun⟩

theorem signer?_of_signerOf? (h : s.signerOf? messages = some signer) :
    s.signer? (Transaction.signBytesOf messages) = some signer := by
  rw [signerOf?] at h
  split at h
  · exact h
  · cases h

theorem signerOf?_of_not_signs (hs : ¬ s.Signs messages) : s.signerOf? messages = none := by
  rwa [signs_iff, Option.not_isSome_iff_eq_none] at hs

theorem filterMap_signerOf? (messages : List Message) (sigs : List TxSignature) :
    sigs.filterMap (signerOf? messages) = Transaction.verifiedSigners ⟨messages, sigs⟩ := by
  rw [Transaction.verifiedSigners]
  by_cases h : Message.AllFit messages
  · rw [if_pos h]
    exact List.filterMap_congr fun sig _ => if_pos h
  · rw [if_neg h]
    exact List.filterMap_eq_nil_iff.2 fun sig _ => if_neg h

/-- The signers of signatures, counted past those that are not of the messages. -/
theorem getElem?_filterMap_signerOf? (messages : List Message) (sigs : List TxSignature) (i : Nat) :
    (sigs.filterMap (signerOf? messages))[i]?
      = (sigs.filter (Signs messages))[i]?.bind (signerOf? messages) := by
  induction sigs generalizing i with
  | nil => rfl
  | cons s sigs ih =>
      by_cases hs : s.Signs messages
      · obtain ⟨signer, hsigner⟩ := Option.isSome_iff_exists.1 (signs_iff.1 hs)
        rw [List.filterMap_cons_some hsigner, List.filter_cons_of_pos (by simpa using hs)]
        cases i with
        | zero =>
            rw [List.getElem?_cons_zero, List.getElem?_cons_zero, Option.bind_some, hsigner]
        | succ i => exact ih i
      · rw [List.filterMap_cons_none (signerOf?_of_not_signs hs),
          List.filter_cons_of_neg (by simpa using hs)]
        exact ih i

/-- The signers have the keys that the signatures of the messages are under. -/
theorem keys_filterMap_signerOf? (messages : List Message) (sigs : List TxSignature) :
    (sigs.filterMap (signerOf? messages)).map (fun signer => signer.key.octets)
      = (sigs.filter (Signs messages)).map key := by
  refine List.ext_getElem? fun i => ?_
  rw [List.getElem?_map, List.getElem?_map, getElem?_filterMap_signerOf?]
  cases hsig : (sigs.filter (Signs messages))[i]? with
  | none => rfl
  | some sig =>
      have hsigns : sig.Signs messages := by
        simpa using (List.mem_filter.1 (List.mem_of_getElem? hsig)).2
      obtain ⟨signer, hsigner⟩ := Option.isSome_iff_exists.1 (signs_iff.1 hsigns)
      rw [Option.bind_some, hsigner]
      exact congrArg some (signer?_eq_some_iff.1 (signer?_of_signerOf? hsigner)).1

/-- Signatures among which others have been put that are not of the messages. -/
inductive Padded (messages : List Message) : List TxSignature → List TxSignature → Prop
  | nil : Padded messages [] []
  | keep (s : TxSignature) {sigs padded : List TxSignature} (h : Padded messages sigs padded) :
      Padded messages (s :: sigs) (s :: padded)
  | junk {s : TxSignature} (hs : ¬ s.Signs messages) {sigs padded : List TxSignature}
      (h : Padded messages sigs padded) : Padded messages sigs (s :: padded)

theorem Padded.filterMap_eq {sigs padded : List TxSignature} (h : Padded messages sigs padded) :
    padded.filterMap (signerOf? messages) = sigs.filterMap (signerOf? messages) := by
  induction h with
  | nil => rfl
  | keep s _ ih => rw [List.filterMap_cons, List.filterMap_cons, ih]
  | junk hs _ ih => rw [List.filterMap_cons_none (signerOf?_of_not_signs hs), ih]

theorem Padded.length_le {sigs padded : List TxSignature} (h : Padded messages sigs padded) :
    sigs.length ≤ padded.length := by
  induction h with
  | nil => exact le_rfl
  | keep s _ ih => exact Nat.succ_le_succ ih
  | junk _ _ ih => exact Nat.le_succ_of_le ih

end TxSignature

/-! ## Signatures that were made -/

/-- The address of whoever holds a seed. -/
def Address.ofSeed (seed : Octets 32) : Address := ⟨Base64.encode (Ed25519.publicBytes seed).bytes⟩

/-- What verification accepts of signing: the signature of the message by the holder of the seed. -/
def Ed25519.Accepts (message : Bytes) (seed : Octets 32) : Prop :=
  TxSignature.Verifies message ⟨publicBytes seed, ⟨sign seed message⟩⟩

instance (message : Bytes) : DecidablePred (Ed25519.Accepts message) := fun _ =>
  inferInstanceAs (Decidable (TxSignature.Verifies _ _))

/-- The signer of a signature that was made and is accepted is the holder of the seed. -/
theorem Ed25519.Accepts.exists_signer {message : Bytes} {seed : Octets 32} (h : Accepts message seed) :
    ∃ signer,
      TxSignature.signer? message ⟨publicBytes seed, ⟨sign seed message⟩⟩ = some signer ∧
      signer.address = .ofSeed seed := by
  obtain ⟨signer, hsigner⟩ := Option.isSome_iff_exists.1 (TxSignature.verifies_iff.1 h)
  obtain ⟨hkey, -, haddress⟩ := TxSignature.signer?_eq_some_iff.1 hsigner
  refine ⟨signer, hsigner, ?_⟩
  rw [haddress, Address.ofKey, hkey, Address.ofSeed]

namespace Transaction

/-- A transaction that was signed goes by those who signed it. -/
theorem addresses_sign {messages : List Message} (hmessages : Message.AllFit messages)
    {seeds : List (Octets 32)}
    (h : ∀ seed ∈ seeds, Ed25519.Accepts (signBytesOf messages) seed) :
    (sign messages seeds).verifiedSigners.map Signer.address = seeds.map Address.ofSeed := by
  rw [verifiedSigners, sign, if_pos hmessages, signBytes]
  induction seeds with
  | nil => rfl
  | cons seed seeds ih =>
      obtain ⟨hseed, hseeds⟩ := List.forall_mem_cons.1 h
      obtain ⟨signer, hsigner, haddress⟩ := hseed.exists_signer
      rw [List.map_cons, List.filterMap_cons_some hsigner, List.map_cons, List.map_cons, haddress,
        ih hseeds]

/-- Messages can be signed if they can be written. -/
theorem trySign_eq_ok_iff {messages : List Message} {seeds : List (Octets 32)} {tx : Transaction} :
    trySign messages seeds = .ok tx ↔ Message.AllFit messages ∧ tx = sign messages seeds := by
  rw [trySign]
  by_cases h : Message.AllFit messages
  · simp [Format.write_of_fits h, h, eq_comm]
  · simp [Format.write_of_not_fits h, h]

/-- More signatures can be written as long as there are not too many. -/
theorem fits_of_padded {messages : List Message} {sigs padded : List TxSignature}
    (h : TxSignature.Padded messages sigs padded) :
    Fits ⟨messages, padded⟩ ↔ Fits ⟨messages, sigs⟩ ∧ padded.length < 256 ^ 4 :=
  ⟨fun hfits => ⟨⟨hfits.messages_length, hfits.messages,
      h.length_le.trans_lt hfits.signatures_length⟩, hfits.signatures_length⟩,
    fun hfits => ⟨hfits.1.messages_length, hfits.1.messages, hfits.2⟩⟩

end Transaction

/-! ## The signer that is recorded -/

/-- To insert the transaction answers with its hash, and enters it last into the pending pool under this
signer. -/
def Site.Records {σ : Type} (s : Site σ) (tx : Transaction) (signer : Address) : Prop :=
  ∃ s', Action.insertTx tx s = (.ok tx.hash, s') ∧
    s'.mempool.pending.toList
      = s.mempool.pending.toList ++ [⟨signer, Mempool.pendingPriority, tx.hash, tx⟩] ∧
    s'.mempool.ready.toList = s.mempool.ready.toList

/-- A transaction without verified signers is refused. -/
theorem Action.insertTx_of_verifiedSigners_eq_nil {σ : Type} {s : Site σ} {tx : Transaction}
    (h : tx.verifiedSigners = []) : Action.insertTx tx s = (.error .missingSignature, s) := by
  rw [insertTx, call, Mempool.insert, Mempool.identify, h]

/-- So is a transaction that is too long to have a hash. -/
theorem Action.insertTx_of_not_fits {σ : Type} {s : Site σ} {tx : Transaction}
    (hsigners : tx.verifiedSigners ≠ []) (htx : ¬ tx.Fits) :
    Action.insertTx tx s = (.error (.unhashable Format.tooLong), s) := by
  obtain ⟨signer, rest, h⟩ := List.exists_cons_of_ne_nil hsigners
  rw [insertTx, call, Mempool.insert, Mempool.identify, h, Transaction.computeHash_of_not_fits htx]

/-- Any other transaction is entered under its first verified signer. -/
theorem Site.records_iff {σ : Type} {s : Site σ} (hs : s.mempool.Indexed) {tx : Transaction}
    {signer : Address} :
    s.Records tx signer ↔
      tx.verifiedSigners.head?.map Signer.address = some signer ∧ tx.Fits := by
  have hidentify : tx.verifiedSigners.head?.map Signer.address = some signer ∧ tx.Fits ↔
      Mempool.identify tx = .ok (signer, tx.hash) := by
    rw [Mempool.identify_eq_ok_iff, Option.map_eq_some_iff]
    constructor
    · rintro ⟨⟨verified, hfirst, rfl⟩, htx⟩
      exact ⟨verified, hfirst, htx, rfl⟩
    · rintro ⟨verified, hfirst, htx, hname⟩
      exact ⟨⟨verified, hfirst, (congrArg Prod.fst hname).symm⟩, htx⟩
  rw [hidentify]
  rcases (PoolCall.insert tx).run_cases hs with
    ⟨e, hplain, hrun⟩ | ⟨signer', s', hname, hplain, hrun, -, -⟩
  · constructor
    · rintro ⟨s', hanswer, -⟩
      cases hrun.symm.trans hanswer
    · intro h
      cases hplain.symm.trans (PlainPools.insert_of_identify h)
  · have hlists := Except.ok.inj (hplain.symm.trans (PlainPools.insert_of_identify hname))
    have hpending : s'.mempool.pending.toList
        = s.mempool.pending.toList ++ [⟨signer', Mempool.pendingPriority, tx.hash, tx⟩] :=
      congrArg PlainPools.pending hlists
    constructor
    · rintro ⟨s'', hanswer, hentered, -⟩
      cases hrun.symm.trans hanswer
      have hentry := List.append_cancel_left (hpending.symm.trans hentered)
      obtain rfl : signer' = signer := congrArg Entry.signer (List.cons.inj hentry).1
      exact hname
    · intro h
      cases hname.symm.trans h
      exact ⟨s', hrun, hpending, congrArg PlainPools.ready hlists⟩

/-! ## Signing, and what is added -/

/-- **Signatures that do not verify change nothing.** Take any messages. The verified signers of a
transaction are the accounts of those of its signatures that are of the messages, that is, verify over the
bytes of the messages, in their order. A mempool enters the transaction under the first of them, and
refuses it if there are none, or if it is too long to be hashed. Whatever else is put among the
signatures, anywhere, the verified signers are the same, and so is the account that the transaction is
entered under, as long as it can still be hashed. If the signatures that verify are rearranged, so are the
verified signers. And if some accounts, at least one, sign the messages, and verification accepts what
they make, then the transaction goes by exactly these accounts, in order, whatever is put among the
signatures; and unless there are too many of them to be written, it is inserted under the first of these
accounts, and comes out of its encoding as it went in. -/
theorem verified_signers_amid_junk {σ : Type} (s : Site σ) (hs : s.mempool.Reachable)
    (messages : List Message) :
    let signers := fun sigs => Transaction.verifiedSigners ⟨messages, sigs⟩
    let verifying := List.filter fun sig => decide (TxSignature.Signs messages sig)
    (∀ sigs,
      (signers sigs).map (fun signer => signer.key.octets)
        = (verifying sigs).map TxSignature.key ∧
      (∀ signer ∈ signers sigs, signer.address = .ofKey signer.key) ∧
      (signers sigs = [] →
        Action.insertTx ⟨messages, sigs⟩ s = (.error .missingSignature, s)) ∧
      (signers sigs ≠ [] → ¬ Transaction.Fits ⟨messages, sigs⟩ →
        Action.insertTx ⟨messages, sigs⟩ s = (.error (.unhashable Format.tooLong), s)) ∧
      ∀ signer, s.Records ⟨messages, sigs⟩ signer ↔
        (signers sigs).head?.map Signer.address = some signer ∧
          Transaction.Fits ⟨messages, sigs⟩) ∧
    (∀ sigs padded, TxSignature.Padded messages sigs padded →
      signers padded = signers sigs ∧
      ∀ signer, s.Records ⟨messages, padded⟩ signer ↔
        s.Records ⟨messages, sigs⟩ signer ∧ padded.length < 256 ^ 4) ∧
    (∀ sigs sigs' (place : Nat → Nat),
      (∀ i : Nat, (verifying sigs')[i]? = (verifying sigs)[place i]?) →
      ∀ i : Nat, (signers sigs')[i]? = (signers sigs)[place i]?) ∧
    ∀ first others made, Transaction.trySign messages (first :: others) = .ok made →
      (∀ seed ∈ first :: others, Ed25519.Accepts (Transaction.signBytesOf messages) seed) →
      ∀ padded, TxSignature.Padded messages made.signatures padded →
        (signers padded).map Signer.address = (first :: others).map Address.ofSeed ∧
        (padded.length < 256 ^ 4 →
          s.Records ⟨messages, padded⟩ (.ofSeed first) ∧
          (TxCodec.standard.encode ⟨messages, padded⟩).bind TxCodec.standard.decode
            = .ok ⟨messages, padded⟩) := by
  intro signers verifying
  have hindexed := hs.regular.indexed
  have hsigners : ∀ sigs, sigs.filterMap (TxSignature.signerOf? messages) = signers sigs :=
    TxSignature.filterMap_signerOf? messages
  have hpadded : ∀ sigs padded, TxSignature.Padded messages sigs padded →
      signers padded = signers sigs := fun sigs padded h => by
    rw [← hsigners, ← hsigners, h.filterMap_eq]
  refine ⟨fun sigs => ⟨?_, ?_, Action.insertTx_of_verifiedSigners_eq_nil,
    Action.insertTx_of_not_fits, fun _ => Site.records_iff hindexed⟩, ?_, ?_, ?_⟩
  · rw [← hsigners]
    exact TxSignature.keys_filterMap_signerOf? messages sigs
  · intro signer hsigner
    rw [← hsigners] at hsigner
    obtain ⟨sig, -, hsig⟩ := List.mem_filterMap.1 hsigner
    exact (TxSignature.signer?_eq_some_iff.1 (TxSignature.signer?_of_signerOf? hsig)).2.2
  · intro sigs padded h
    have hsame : Transaction.verifiedSigners ⟨messages, padded⟩
        = Transaction.verifiedSigners ⟨messages, sigs⟩ := hpadded sigs padded h
    refine ⟨hsame, fun signer => ?_⟩
    rw [Site.records_iff hindexed, Site.records_iff hindexed, hsame, Transaction.fits_of_padded h,
      and_assoc]
  · intro sigs sigs' place hplace i
    have hat := TxSignature.getElem?_filterMap_signerOf? messages
    rw [← hsigners, ← hsigners, hat, hat]
    exact congrArg (Option.bind · (TxSignature.signerOf? messages)) (hplace i)
  · intro first others made hmade haccepts padded h
    obtain ⟨hmessages, rfl⟩ := Transaction.trySign_eq_ok_iff.1 hmade
    have haddresses : (signers padded).map Signer.address = (first :: others).map Address.ofSeed :=
      (congrArg _ (hpadded _ padded h)).trans (Transaction.addresses_sign hmessages haccepts)
    refine ⟨haddresses, fun hlength => ?_⟩
    have hfits : Transaction.Fits ⟨messages, padded⟩ := ⟨hmessages.1, hmessages.2, hlength⟩
    constructor
    · rw [Site.records_iff hindexed, ← List.head?_map]
      exact ⟨congrArg List.head? haddresses, hfits⟩
    · rw [TxCodec.encode_standard_eq_ok_iff.2 ⟨hfits, rfl⟩]
      exact TxCodec.decode_standard hfits

theorem length_otherSeed : (List.replicate 32 (9 : UInt8)).length = 32 := rfl

theorem length_noPoint : (2 :: List.replicate 31 (0 : UInt8)).length = 32 := rfl

theorem length_noSignature : (List.replicate 64 (0 : UInt8)).length = 64 := rfl

/-- The seed that `signedBid` is signed with. -/
def someSeed : Octets 32 := ⟨List.replicate 32 7, length_signingSeed⟩

def otherSeed : Octets 32 := ⟨List.replicate 32 9, length_otherSeed⟩

/-- A signature that was made up, under a key that stands for no point. -/
def keyless : TxSignature :=
  ⟨⟨2 :: List.replicate 31 0, length_noPoint⟩, ⟨⟨List.replicate 64 0, length_noSignature⟩⟩⟩

theorem not_signs_keyless : ¬ keyless.Signs signedBid.messages := by
  decide +kernel

theorem accepts_someSeed_otherSeed :
    ∀ seed ∈ [someSeed, otherSeed],
      Ed25519.Accepts (Transaction.signBytesOf signedBid.messages) seed := by
  decide +kernel

theorem allFit_messages_signedBid : Message.AllFit signedBid.messages := by
  decide

/-- Two accounts sign the messages of a bid, and signatures under no key are put in front of either. -/
theorem signers_of_twice_signed_bid :
    let messages := signedBid.messages
    ∃ made, Transaction.trySign messages [someSeed, otherSeed] = .ok made ∧
      let padded := made.signatures.flatMap fun sig => [keyless, sig]
      TxSignature.Padded messages made.signatures padded ∧
      (Transaction.verifiedSigners ⟨messages, padded⟩).map Signer.address
        = [Address.ofSeed someSeed, Address.ofSeed otherSeed] ∧
      freshSite.Records ⟨messages, padded⟩ (.ofSeed someSeed) ∧
      (TxCodec.standard.encode ⟨messages, padded⟩).bind TxCodec.standard.decode
        = .ok ⟨messages, padded⟩ := by
  have hkeyless := not_signs_keyless
  have haccepts := accepts_someSeed_otherSeed
  have hmessages := allFit_messages_signedBid
  generalize signedBid.messages = messages at hkeyless haccepts hmessages ⊢
  have hmade : Transaction.trySign messages [someSeed, otherSeed]
      = .ok (Transaction.sign messages [someSeed, otherSeed]) :=
    Transaction.trySign_eq_ok_iff.2 ⟨hmessages, rfl⟩
  refine ⟨_, hmade, ?_⟩
  intro padded
  have hpadded : TxSignature.Padded messages
      (Transaction.sign messages [someSeed, otherSeed]).signatures padded :=
    .junk hkeyless (.keep _ (.junk hkeyless (.keep _ .nil)))
  have hlength : padded.length < 256 ^ 4 := by
    change 4 < 256 ^ 4
    decide
  obtain ⟨-, -, -, hsigned⟩ := verified_signers_amid_junk freshSite .empty messages
  obtain ⟨haddresses, hinserted⟩ :=
    hsigned someSeed [otherSeed] _ hmade haccepts padded hpadded
  exact ⟨hpadded, haddresses, hinserted hlength⟩

end BidQuorum
