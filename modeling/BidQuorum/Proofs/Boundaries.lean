import BidQuorum.Proofs.Formats

set_option autoImplicit false

/-! # Where an encoding ends

Bytes that travel may break off, and something may be stuck to their end. Neither is ever taken for a
value: what is left of an encoding that breaks off is refused for its length, wherever the cut is, and
an encoding with more behind it for what is left over (`encodings_delimited`).

The first of the two is the law `Format.Breaks`, which is followed here from the compounds of
`Wire/Laws.lean` up to whole values. The second comes of reading back: the value is read, and the rest
is still there. -/

namespace BidQuorum

open Format

namespace Format

variable {α : Type} {f : Format α} {Fits : α → Prop}

/-! ## Decoding less and more than an encoding -/

theorem Breaks.decode_of_prefix (hf : f.Breaks Fits) {a : α} (ha : Fits a) {front : Bytes}
    (hfront : front <+: f.encode a) (hne : front ≠ f.encode a) :
    f.decode front = .error .endOfInput := by
  obtain ⟨back, hback⟩ := hfront
  have hcut : back ≠ [] := by
    rintro rfl
    exact hne ((List.append_nil front).symm.trans hback)
  rw [decode, hf a ha front back hback.symm hcut]

theorem ReadsBack.decode_append (hf : f.ReadsBack Fits) {a : α} (ha : Fits a) {more : Bytes}
    (hmore : more ≠ []) : f.decode (f.encode a ++ more) = .error .trailingBytes := by
  obtain ⟨b, rest, rfl⟩ := List.exists_cons_of_ne_nil hmore
  rw [decode, hf a ha]

/-- The encoding of one value does not go on as that of another. -/
theorem ReadsBack.eq_of_prefix (hf : f.ReadsBack Fits) {a b : α} (ha : Fits a) (hb : Fits b)
    (h : f.encode a <+: f.encode b) : a = b := by
  obtain ⟨more, hmore⟩ := h
  have hread := hf.decode_encode hb
  rw [← hmore] at hread
  by_cases hnil : more = []
  · rw [hnil, List.append_nil, hf.decode_encode ha] at hread
    exact Except.ok.inj hread
  · rw [hf.decode_append ha hnil] at hread
    cases hread

end Format

/-! ## Encodings that break off -/

theorem Height.breaks_format : Height.format.Breaks fun _ => True :=
  (breaks_unsigned 8).map fun h _ => h.number.toNat_lt

theorem Signature.breaks_format : Signature.format.Breaks fun _ => True :=
  (breaks_octets 64).map fun _ _ => trivial

theorem Coin.breaks_format : Coin.format.Breaks Coin.Fits :=
  (breaks_text.pair readsBack_text (breaks_unsigned 16)).map fun c hc => ⟨hc, c.amount.isLt⟩

theorem Bid.breaks_format : Bid.format.Breaks Bid.Fits :=
  (breaks_text.pair readsBack_text
    (breaks_text.pair readsBack_text
      (breaks_text.pair readsBack_text
        (Coin.breaks_format.list Coin.readsBack_format)))).map
    fun _ hb => ⟨hb.name, hb.resolveAddress, hb.owner, hb.length, hb.amount⟩

theorem ForeignMessage.breaks_format : ForeignMessage.format.Breaks ForeignMessage.Fits :=
  (breaks_text.pair readsBack_text breaks_blob).map fun _ hm => ⟨hm.typeUrl, hm.value⟩

theorem Message.breaks_format : Message.format.Breaks Message.Fits :=
  (Bid.breaks_format.either ForeignMessage.breaks_format).map fun m hm => by
    cases m <;> exact hm

theorem TxSignature.breaks_format : TxSignature.format.Breaks fun _ => True :=
  ((breaks_octets 32).pair (readsBack_octets 32) Signature.breaks_format).map
    fun _ _ => ⟨trivial, trivial⟩

theorem Transaction.breaks_format : Transaction.format.Breaks Transaction.Fits :=
  ((Message.breaks_format.list Message.readsBack_format).pair Message.readsBack_format.list
    (TxSignature.breaks_format.list TxSignature.readsBack_format)).map fun _ htx =>
      ⟨⟨htx.messages_length, htx.messages⟩, htx.signatures_length, fun _ _ => trivial⟩

theorem SpecialTransaction.breaks_format :
    SpecialTransaction.format.Breaks SpecialTransaction.Fits :=
  (Height.breaks_format.pair Height.readsBack_format (breaks_blob.list readsBack_blob)).map
    fun _ hs => ⟨trivial, hs.length, hs.bids⟩

theorem Format.Breaks.textMap {α : Type} {f : Format α} {F : α → Prop} (hf : f.Breaks F)
    (rf : f.ReadsBack F) :
    (Format.textMap f).Breaks fun m =>
      m.entries.length < 256 ^ 4 ∧ ∀ x ∈ m.entries, FitsText x.1 ∧ F x.2 :=
  ((breaks_text.pair readsBack_text hf).list (readsBack_text.pair rf)).map fun _ hm => hm

theorem VoteExtension.breaks_format : VoteExtension.format.Breaks VoteExtension.Fits :=
  (Height.breaks_format.pair Height.readsBack_format
    ((breaks_blob.list readsBack_blob).pair readsBack_blob.list
      (breaks_blob.textMap readsBack_blob))).map fun _ hv =>
        ⟨trivial, ⟨hv.bids_length, hv.bids⟩, hv.extraInfo_length, hv.extraInfo⟩

/-! ## Delimited encodings -/

/-- The bytes of a value that fits say where they end. A part of them that is cut off is refused with
the error `cut`, what goes on behind them with the error `extra`, and so they are not the front of other
such bytes. -/
structure Delimited {α ε : Type} (Fits : α → Prop) (encode : α → Bytes)
    (decode : Bytes → Except ε α) (cut extra : ε) : Prop where
  truncated : ∀ a, Fits a → ∀ front, front <+: encode a → front ≠ encode a →
    decode front = .error cut
  extended : ∀ a, Fits a → ∀ more, more ≠ [] → decode (encode a ++ more) = .error extra
  eq_of_prefix : ∀ a b, Fits a → Fits b → encode a <+: encode b → a = b

theorem Format.delimited {α : Type} {f : Format α} {Fits : α → Prop} (hbreaks : f.Breaks Fits)
    (hreads : f.ReadsBack Fits) : Delimited Fits f.encode f.decode .endOfInput .trailingBytes where
  truncated _ ha _ := hbreaks.decode_of_prefix ha
  extended _ ha _ := hreads.decode_append ha
  eq_of_prefix _ _ ha hb := hreads.eq_of_prefix ha hb

/-- The standard codec refuses what its format refuses, and passes the reason on. -/
theorem TxCodec.decode_standard_of_error {bytes : Bytes} {e : DecodeError}
    (h : Transaction.format.decode bytes = .error e) :
    TxCodec.standard.decode bytes = .error (.decode e.message) := by
  simp only [TxCodec.standard, h]

/-- **Encodings are delimited.** Transactions, bids, special transactions and vote extensions are not
read of less than their bytes, wherever these break off, nor of more. The first is always reported as
the end of the input and the second as bytes left over, never as another fault. No encoding is the
front of another one of its kind. -/
theorem encodings_delimited :
    Delimited Transaction.Fits Transaction.format.encode TxCodec.standard.decode
      (.decode "Unexpected length of input") (.decode "Not all bytes read") ∧
    Delimited Bid.Fits Bid.canonicalBytes Bid.ofCanonicalBytes .endOfInput .trailingBytes ∧
    Delimited SpecialTransaction.Fits SpecialTransaction.toBytes SpecialTransaction.ofBytes
      .endOfInput .trailingBytes ∧
    Delimited VoteExtension.Fits VoteExtension.toBytes VoteExtension.ofBytes
      .endOfInput .trailingBytes ∧
    DecodeError.endOfInput.message = "Unexpected length of input" ∧
    DecodeError.trailingBytes.message = "Not all bytes read" := by
  have htx := Format.delimited Transaction.breaks_format Transaction.readsBack_format
  refine ⟨⟨fun tx hfits front hfront hne => ?_, fun tx hfits more hmore => ?_, htx.eq_of_prefix⟩,
    Format.delimited Bid.breaks_format Bid.readsBack_format,
    Format.delimited SpecialTransaction.breaks_format SpecialTransaction.readsBack_format,
    Format.delimited VoteExtension.breaks_format VoteExtension.readsBack_format, rfl, rfl⟩
  · exact TxCodec.decode_standard_of_error (htx.truncated tx hfits front hfront hne)
  · exact TxCodec.decode_standard_of_error (htx.extended tx hfits more hmore)

/-- A bid whose name breaks off inside a character is refused for its length and not for the bytes of
that character, and its transaction is refused alike before the tag of its message. -/
theorem refused_inside_character :
    let b : Bid := ⟨"é", "addr", "own", []⟩
    let tx : Transaction := ⟨[.bid b], []⟩
    b.canonicalBytes.take 5 = [2, 0, 0, 0, 0xC3] ∧
      Bid.ofCanonicalBytes (b.canonicalBytes.take 5) = .error .endOfInput ∧
      Bid.ofCanonicalBytes (b.canonicalBytes ++ [0]) = .error .trailingBytes ∧
      TxCodec.standard.decode ((Transaction.format.encode tx).take 4)
        = .error (.decode "Unexpected length of input") := by
  intro b tx
  have hb : b.Fits := by decide +kernel
  have htx : tx.Fits := by decide +kernel
  obtain ⟨hdelimited, hbid, -⟩ := encodings_delimited
  refine ⟨by decide +kernel, ?_, hbid.extended b hb [0] (by decide), ?_⟩
  · exact hbid.truncated b hb _ (List.take_prefix _ _) (by decide +kernel)
  · exact hdelimited.truncated tx htx _ (List.take_prefix _ _) (by decide +kernel)

end BidQuorum
