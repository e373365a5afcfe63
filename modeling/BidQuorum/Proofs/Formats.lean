import Mathlib.Tactic.MkIffOfInductiveProp
import BidQuorum.Wire.Laws
import BidQuorum.Proofs.TextMap
import BidQuorum.VoteExtension
import BidQuorum.Proposal
import BidQuorum.TxCodec

set_option autoImplicit false

/-! # Formats of bids, transactions, proposals and vote extensions

The laws of `Wire/Laws.lean`, followed up to the values that travel between validators. A value
*fits* if every list and every text in it is shorter than `2³²`; only such values can be written at
all, and they are read back as they were. Whatever is read fits. -/

namespace BidQuorum

namespace Format

variable {α β γ : Type} {f : Format α} {g : Format β} {Fits : α → Prop}

/-! ## Decoding -/

theorem decode_eq_ok_iff {bytes : Bytes} {a : α} :
    f.decode bytes = .ok a ↔ f.read bytes = .ok (a, []) := by
  rw [decode]
  split
  · next e he => rw [he]; simp
  · next b hb => rw [hb]; simp
  · next b x xs hb => rw [hb]; simp

theorem ReadsBack.decode_encode (hf : f.ReadsBack Fits) {a : α} (ha : Fits a) :
    f.decode (f.encode a) = .ok a := by
  have hread := hf a ha []
  rw [List.append_nil] at hread
  exact decode_eq_ok_iff.2 hread

/-- Values that fit have the same encoding only if they are the same. -/
theorem ReadsBack.encode_inj (hf : f.ReadsBack Fits) {a b : α} (ha : Fits a) (hb : Fits b) :
    f.encode a = f.encode b ↔ a = b := by
  refine ⟨fun h => ?_, congrArg _⟩
  have hdecode := hf.decode_encode ha
  rw [h, hf.decode_encode hb] at hdecode
  exact (Except.ok.inj hdecode).symm

theorem Canonical.fits_of_decode (hf : f.Canonical Fits) {bytes : Bytes} {a : α}
    (h : f.decode bytes = .ok a) : Fits a :=
  (hf _ _ _ (decode_eq_ok_iff.1 h)).2

theorem Canonical.eq_encode_of_decode (hf : f.Canonical Fits) {bytes : Bytes} {a : α}
    (h : f.decode bytes = .ok a) : bytes = f.encode a :=
  (hf _ _ _ (decode_eq_ok_iff.1 h)).1.trans (List.append_nil _)

/-- A format with both laws reads exactly the encodings of the values that fit. -/
theorem decode_eq_ok_iff_encode (hreads : f.ReadsBack Fits) (hcanonical : f.Canonical Fits)
    {bytes : Bytes} {a : α} : f.decode bytes = .ok a ↔ bytes = f.encode a ∧ Fits a := by
  constructor
  · intro h
    exact ⟨hcanonical.eq_encode_of_decode h, hcanonical.fits_of_decode h⟩
  · rintro ⟨rfl, ha⟩
    exact hreads.decode_encode ha

/-- A list of values that fit is decoded of its encodings. -/
theorem ReadsBack.map_decode_encode (hf : f.ReadsBack Fits) {as : List α} (has : ∀ a ∈ as, Fits a) :
    (as.map f.encode).map f.decode = as.map .ok := by
  rw [List.map_map]
  exact List.map_congr_left fun a ha => hf.decode_encode (has a ha)

theorem map_decode_eq_map_ok_iff (hreads : f.ReadsBack Fits) (hcanonical : f.Canonical Fits)
    {encoded : List Bytes} {as : List α} :
    encoded.map f.decode = as.map .ok ↔ encoded = as.map f.encode ∧ ∀ a ∈ as, Fits a := by
  constructor
  · intro h
    induction encoded generalizing as with
    | nil =>
        rw [List.map_eq_nil_iff.1 h.symm]
        exact ⟨rfl, nofun⟩
    | cons bytes rest ih =>
        cases as with
        | nil => cases h
        | cons a as =>
            obtain ⟨hfirst, hrest⟩ := List.cons_eq_cons.1 h
            obtain ⟨hbytes, ha⟩ := (decode_eq_ok_iff_encode hreads hcanonical).1 hfirst
            obtain ⟨hencoded, has⟩ := ih hrest
            exact ⟨by rw [hbytes, hencoded, List.map_cons], List.forall_mem_cons.2 ⟨ha, has⟩⟩
  · rintro ⟨rfl, has⟩
    exact hreads.map_decode_encode has

/-- What is decoded in a mapped format was decoded in the format it is made of. -/
theorem decode_map_eq_ok_iff {forth : α → β} {back : β → α} {bytes : Bytes} {b : β} :
    (f.map forth back).decode bytes = .ok b ↔ ∃ a, f.decode bytes = .ok a ∧ forth a = b := by
  simp only [decode_eq_ok_iff, Format.map]
  cases f.read bytes with
  | error e => simp
  | ok x => simp [Prod.ext_iff, and_comm]

/-! ## Moving a map outwards -/

theorem map_map (f : Format α) (forth : α → β) (back : β → α) (forth' : β → γ) (back' : γ → β) :
    (f.map forth back).map forth' back' = f.map (forth' ∘ forth) (back ∘ back') := by
  have hread : ∀ bytes, ((f.map forth back).map forth' back').read bytes
      = (f.map (forth' ∘ forth) (back ∘ back')).read bytes := by
    intro bytes
    simp only [Format.map]
    cases f.read bytes <;> rfl
  exact congrArg (Format.mk (f.encode ∘ back ∘ back')) (funext hread)

theorem pair_map_right (f : Format α) (g : Format β) (forth : β → γ) (back : γ → β) :
    f.pair (g.map forth back) = (f.pair g).map (Prod.map id forth) (Prod.map id back) := by
  have hread : ∀ bytes, (f.pair (g.map forth back)).read bytes
      = ((f.pair g).map (Prod.map id forth) (Prod.map id back)).read bytes := by
    intro bytes
    simp only [Format.map, pair]
    cases f.read bytes with
    | error e => rfl
    | ok x =>
        obtain ⟨a, rest⟩ := x
        dsimp only
        cases g.read rest <;> rfl
  exact congrArg (Format.mk (f.pair (g.map forth back)).encode) (funext hread)

end Format

open Format

/-! ## Heights and hashes -/

theorem Height.readsBack_format : Height.format.ReadsBack fun _ => True :=
  (readsBack_unsigned 8).map fun h _ => ⟨h.number.toNat_lt, by simp⟩

theorem Height.canonical_format : Height.format.Canonical fun _ => True :=
  (canonical_unsigned 8).map fun _ hn => ⟨UInt64.toNat_ofNat_of_lt' hn, trivial⟩

theorem Signature.readsBack_format : Signature.format.ReadsBack fun _ => True :=
  (readsBack_octets 64).map fun _ _ => ⟨trivial, rfl⟩

theorem Signature.canonical_format : Signature.format.Canonical fun _ => True :=
  (canonical_octets 64).map fun _ _ => ⟨rfl, trivial⟩

/-! ## Bids -/

theorem Coin.readsBack_format : Coin.format.ReadsBack Coin.Fits :=
  (readsBack_text.pair (readsBack_unsigned 16)).map fun c hc =>
    ⟨⟨hc, c.amount.isLt⟩, by simp⟩

theorem Coin.canonical_format : Coin.format.Canonical Coin.Fits :=
  (canonical_text.pair (canonical_unsigned 16)).map fun _ hx =>
    ⟨Prod.ext rfl (Nat.mod_eq_of_lt hx.2), hx.1⟩

theorem Bid.readsBack_format : Bid.format.ReadsBack Bid.Fits :=
  (readsBack_text.pair (readsBack_text.pair (readsBack_text.pair Coin.readsBack_format.list))).map
    fun _ hb => ⟨⟨hb.name, hb.resolveAddress, hb.owner, hb.length, hb.amount⟩, rfl⟩

theorem Bid.canonical_format : Bid.format.Canonical Bid.Fits :=
  (canonical_text.pair (canonical_text.pair (canonical_text.pair Coin.canonical_format.list))).map
    fun _ hx => ⟨rfl, hx.1, hx.2.1, hx.2.2.1, hx.2.2.2.1, hx.2.2.2.2⟩

/-- Bids that fit are counted under the same bytes only if they are the same bid. -/
theorem Bid.canonicalBytes_inj {a b : Bid} (ha : a.Fits) (hb : b.Fits) :
    a.canonicalBytes = b.canonicalBytes ↔ a = b :=
  Bid.readsBack_format.encode_inj ha hb

/-- Bytes can be read as a bid only if they are its canonical ones. -/
theorem Bid.ofCanonicalBytes_eq_ok_iff {bytes : Bytes} {b : Bid} :
    ofCanonicalBytes bytes = .ok b ↔ bytes = b.canonicalBytes ∧ b.Fits :=
  decode_eq_ok_iff_encode Bid.readsBack_format Bid.canonical_format

/-! ## Transactions -/

theorem ForeignMessage.readsBack_format : ForeignMessage.format.ReadsBack ForeignMessage.Fits :=
  (readsBack_text.pair readsBack_blob).map fun _ hm => ⟨⟨hm.typeUrl, hm.value⟩, rfl⟩

theorem ForeignMessage.canonical_format : ForeignMessage.format.Canonical ForeignMessage.Fits :=
  (canonical_text.pair canonical_blob).map fun _ hx => ⟨rfl, hx.1, hx.2⟩

theorem Message.readsBack_format : Message.format.ReadsBack Message.Fits :=
  (Bid.readsBack_format.either ForeignMessage.readsBack_format).map fun m hm => by
    cases m <;> exact ⟨hm, rfl⟩

theorem Message.canonical_format : Message.format.Canonical Message.Fits :=
  (Bid.canonical_format.either ForeignMessage.canonical_format).map fun x hx => by
    cases x <;> exact ⟨rfl, hx⟩

theorem TxSignature.readsBack_format : TxSignature.format.ReadsBack fun _ => True :=
  ((readsBack_octets 32).pair Signature.readsBack_format).map fun _ _ => ⟨⟨trivial, trivial⟩, rfl⟩

theorem TxSignature.canonical_format : TxSignature.format.Canonical fun _ => True :=
  ((canonical_octets 32).pair Signature.canonical_format).map fun _ _ => ⟨rfl, trivial⟩

theorem Transaction.readsBack_format : Transaction.format.ReadsBack Transaction.Fits :=
  (Message.readsBack_format.list.pair TxSignature.readsBack_format.list).map fun _ htx =>
    ⟨⟨⟨htx.messages_length, htx.messages⟩, htx.signatures_length, fun _ _ => trivial⟩, rfl⟩

theorem Transaction.canonical_format : Transaction.format.Canonical Transaction.Fits :=
  (Message.canonical_format.list.pair TxSignature.canonical_format.list).map fun _ hx =>
    ⟨rfl, hx.1.1, hx.1.2, hx.2.1⟩

/-- The standard codec reads exactly the encodings of transactions that fit. -/
theorem TxCodec.decode_standard_eq_ok_iff {bytes : Bytes} {tx : Transaction} :
    TxCodec.standard.decode bytes = .ok tx ↔ bytes = Transaction.format.encode tx ∧ tx.Fits := by
  rw [← decode_eq_ok_iff_encode Transaction.readsBack_format Transaction.canonical_format]
  simp only [TxCodec.standard]
  cases Transaction.format.decode bytes <;> simp

/-- The standard codec writes exactly the transactions that fit. -/
theorem TxCodec.encode_standard_eq_ok_iff {bytes : Bytes} {tx : Transaction} :
    TxCodec.standard.encode tx = .ok bytes ↔ tx.Fits ∧ bytes = Transaction.format.encode tx := by
  rw [← write_eq_ok_iff, ← Transaction.write]
  simp only [TxCodec.standard]
  cases tx.write <;> simp

theorem TxCodec.decode_standard {tx : Transaction} (htx : tx.Fits) :
    TxCodec.standard.decode (Transaction.format.encode tx) = .ok tx :=
  TxCodec.decode_standard_eq_ok_iff.2 ⟨rfl, htx⟩

/-! ## Special transactions -/

theorem SpecialTransaction.readsBack_format :
    SpecialTransaction.format.ReadsBack SpecialTransaction.Fits :=
  (Height.readsBack_format.pair readsBack_blob.list).map fun _ hs =>
    ⟨⟨trivial, hs.length, hs.bids⟩, rfl⟩

theorem SpecialTransaction.canonical_format :
    SpecialTransaction.format.Canonical SpecialTransaction.Fits :=
  (Height.canonical_format.pair canonical_blob.list).map fun _ hx => ⟨rfl, hx.2.1, hx.2.2⟩

/-- Byte strings are decoded one by one. -/
theorem SpecialTransaction.decodeAll_eq_ok_iff_map {encoded : List Bytes} {bids : List Bid} :
    decodeAll encoded = .ok bids ↔ encoded.map Bid.ofCanonicalBytes = bids.map .ok := by
  induction encoded generalizing bids with
  | nil =>
      constructor
      · intro h
        cases h
        rfl
      · intro h
        rw [List.map_eq_nil_iff.1 h.symm]
        rfl
  | cons bytes rest ih =>
      rw [decodeAll, List.map_cons]
      constructor
      · intro h
        split at h
        · cases h
        · next b hb =>
            split at h
            · cases h
            · next bs hbs =>
                cases h
                rw [hb, ih.1 hbs, List.map_cons]
      · intro h
        cases bids with
        | nil => cases h
        | cons b bids =>
            obtain ⟨hfirst, hrest⟩ := List.cons_eq_cons.1 h
            simp only [hfirst, ih.2 hrest]

/-- Byte strings can be decoded to bids exactly if they are the canonical bytes of these. -/
theorem SpecialTransaction.decodeAll_eq_ok_iff {encoded : List Bytes} {bids : List Bid} :
    decodeAll encoded = .ok bids ↔
      encoded = bids.map Bid.canonicalBytes ∧ ∀ b ∈ bids, b.Fits :=
  decodeAll_eq_ok_iff_map.trans
    (map_decode_eq_map_ok_iff Bid.readsBack_format Bid.canonical_format)

/-- What is decoded of a list of byte strings fits, one bid for each. -/
theorem SpecialTransaction.fits_of_decodeAll {encoded : List Bytes} {bids : List Bid}
    (h : decodeAll encoded = .ok bids) :
    bids.length = encoded.length ∧ ∀ b ∈ bids, b.Fits := by
  obtain ⟨hencoded, hfits⟩ := decodeAll_eq_ok_iff.1 h
  exact ⟨by rw [hencoded, List.length_map], hfits⟩

/-! ## Vote extensions -/

theorem Format.ReadsBack.textMap {α : Type} {f : Format α} {F : α → Prop} (hf : f.ReadsBack F) :
    (Format.textMap f).ReadsBack fun m =>
      m.entries.length < 256 ^ 4 ∧ ∀ x ∈ m.entries, FitsText x.1 ∧ F x.2 :=
  (readsBack_text.pair hf).list.map fun m hm => ⟨hm, m.ofList_entries⟩

theorem VoteExtension.readsBack_format : VoteExtension.format.ReadsBack VoteExtension.Fits :=
  (Height.readsBack_format.pair (readsBack_blob.list.pair readsBack_blob.textMap)).map fun _ hv =>
    ⟨⟨trivial, ⟨hv.bids_length, hv.bids⟩, hv.extraInfo_length, hv.extraInfo⟩, rfl⟩

theorem VoteExtension.ofBytes_toBytes {v : VoteExtension} (hv : v.Fits) :
    ofBytes v.toBytes = .ok v :=
  VoteExtension.readsBack_format.decode_encode hv

/-! ## What the bytes of an extension spell out -/

/-- The contributions to an extension as they come in its bytes: in whatever order, and under one key
perhaps more than once. -/
structure Spelling where
  height : Height
  bids : List Bytes
  contributions : List (String × Bytes)

/-- The height, the bids, then the contributions as they come. -/
def Spelling.format : Format Spelling :=
  (Height.format.pair ((Format.list Format.blob).pair
    (Format.list (Format.text.pair Format.blob)))).map
    (fun x => ⟨x.1, x.2.1, x.2.2⟩) (fun p => (p.height, p.bids, p.contributions))

/-- The extension that is read of it. -/
def Spelling.extension (p : Spelling) : VoteExtension := ⟨p.height, p.bids, .ofList p.contributions⟩

/-- How an extension is spelled out when it is written. -/
def VoteExtension.spelling (v : VoteExtension) : Spelling := ⟨v.height, v.bids, v.extraInfo.entries⟩

@[mk_iff]
structure Spelling.Fits (p : Spelling) : Prop where
  bids_length : p.bids.length < 256 ^ 4
  bids : ∀ b ∈ p.bids, b.length < 256 ^ 4
  contributions_length : p.contributions.length < 256 ^ 4
  contributions : ∀ x ∈ p.contributions, FitsText x.1 ∧ x.2.length < 256 ^ 4

instance (p : Spelling) : Decidable p.Fits := decidable_of_iff' _ p.fits_iff

theorem Spelling.readsBack_format : Spelling.format.ReadsBack Spelling.Fits :=
  (Height.readsBack_format.pair
    (readsBack_blob.list.pair (readsBack_text.pair readsBack_blob).list)).map fun _ hp =>
      ⟨⟨trivial, ⟨hp.bids_length, hp.bids⟩, hp.contributions_length, hp.contributions⟩, rfl⟩

theorem Spelling.canonical_format : Spelling.format.Canonical Spelling.Fits :=
  (Height.canonical_format.pair
    (canonical_blob.list.pair (canonical_text.pair canonical_blob).list)).map fun _ hx =>
      ⟨rfl, hx.2.1.1, hx.2.1.2, hx.2.2.1, hx.2.2.2⟩

/-- Extensions are read and written as they are spelled out. -/
theorem VoteExtension.format_eq :
    VoteExtension.format = Spelling.format.map Spelling.extension VoteExtension.spelling := by
  rw [VoteExtension.format, Format.textMap, pair_map_right, pair_map_right, map_map,
    Spelling.format, map_map]
  rfl

/-- The byte strings that are read as an extension are those that spell it out. -/
theorem VoteExtension.ofBytes_eq_ok_iff {bytes : Bytes} {v : VoteExtension} :
    ofBytes bytes = .ok v ↔
      ∃ p : Spelling, (bytes = Spelling.format.encode p ∧ p.Fits) ∧ p.extension = v := by
  rw [ofBytes, VoteExtension.format_eq, decode_map_eq_ok_iff]
  simp only [decode_eq_ok_iff_encode Spelling.readsBack_format Spelling.canonical_format]

theorem Spelling.Fits.extension {p : Spelling} (hp : p.Fits) : p.extension.Fits where
  bids_length := hp.bids_length
  bids := hp.bids
  extraInfo_length :=
    Nat.lt_of_le_of_lt (TextMap.length_entries_ofList_le _) hp.contributions_length
  extraInfo x hx := hp.contributions x (TextMap.mem_of_mem_entries_ofList hx)

/-- Whatever is read as an extension can be written again. -/
theorem VoteExtension.fits_of_ofBytes {bytes : Bytes} {v : VoteExtension}
    (h : ofBytes bytes = .ok v) : v.Fits := by
  obtain ⟨p, ⟨-, hp⟩, rfl⟩ := VoteExtension.ofBytes_eq_ok_iff.1 h
  exact hp.extension

end BidQuorum
