import BidQuorum.Proofs.Votes

set_option autoImplicit false

/-! # Who stands behind a bid

A special transaction says which byte strings the vote extensions listed, and not who listed what. So
a validator cannot ask how many of the votes witnessed a bid. It asks instead that the bid makes up
half of all that is listed, rounded down (`Round.status_eq_accept_iff_count`), and this is another
question:

* All that a peer lists is taken for bids. If one byte string is none, then every proposal made of
  these votes is rejected, even one that has no bids to measure (`accept_bidless_iff_listsBids`).
* A bid that all votes witnessed is accepted as long as they list few bids besides it, and rejected
  from then on (`accept_unanimous_iff`).
* A bid that one vote alone witnessed is accepted if this vote lists it often enough, and rejected
  otherwise (`verdict_on_lone_bid`). -/

namespace BidQuorum

/-! ## Bytes that are bids -/

/-- The byte string can be read as a bid. -/
def IsBid (bytes : Bytes) : Prop := ∃ b, Bid.ofCanonicalBytes bytes = .ok b

/-- All that the extension lists are bids. -/
def VoteExtension.ListsBids (e : VoteExtension) : Prop := ∀ bytes ∈ e.bids, IsBid bytes

/-- The canonical bytes of bids that fit are bids. -/
theorem isBid_of_mem_map {bids : List Bid} (hbids : ∀ b ∈ bids, b.Fits) :
    ∀ bytes ∈ bids.map Bid.canonicalBytes, IsBid bytes :=
  List.forall_mem_map.2 fun b hb => ⟨b, Bid.ofCanonicalBytes_eq_ok_iff.2 ⟨rfl, hbids b hb⟩⟩

namespace SpecialTransaction

theorem exists_decodeAll_iff {encoded : List Bytes} :
    (∃ bids, decodeAll encoded = .ok bids) ↔ ∀ bytes ∈ encoded, IsBid bytes := by
  constructor
  · rintro ⟨bids, hdecode⟩
    obtain ⟨rfl, hfits⟩ := decodeAll_eq_ok_iff.1 hdecode
    exact isBid_of_mem_map hfits
  · intro hbids
    induction encoded with
    | nil => exact ⟨[], rfl⟩
    | cons bytes rest ih =>
        obtain ⟨⟨b, hb⟩, hrest⟩ := List.forall_mem_cons.1 hbids
        obtain ⟨bids, hdecode⟩ := ih hrest
        exact ⟨b :: bids, by simp only [decodeAll, hb, hdecode]⟩

/-- A bid is decoded as often as its canonical bytes are listed. -/
theorem count_of_decodeAll {encoded : List Bytes} {bids : List Bid}
    (h : decodeAll encoded = .ok bids) {b : Bid} (hb : b.Fits) :
    bids.count b = encoded.count b.canonicalBytes := by
  obtain ⟨rfl, hfits⟩ := decodeAll_eq_ok_iff.1 h
  rw [List.count, List.count, List.countP_map]
  refine List.countP_congr fun a ha => ?_
  simp only [Function.comp_apply, beq_iff_eq]
  exact (Bid.canonicalBytes_inj (hfits a ha) hb).symm

/-- If all that is listed are bids, then a special transaction backs the transactions whose bids make
up half of the list. -/
theorem backs_iff_count {s : SpecialTransaction} (hlists : ∀ bytes ∈ s.bids, IsBid bytes)
    {txs : List Transaction} (hfits : ∀ tx ∈ txs, ∀ b ∈ tx.bids, b.Fits) :
    s.Backs txs ↔
      ∀ tx ∈ txs, ∀ b ∈ tx.bids, s.bids.length / 2 ≤ s.bids.count b.canonicalBytes := by
  obtain ⟨reference, hdecode⟩ := exists_decodeAll_iff.2 hlists
  constructor
  · rintro (hempty | ⟨bids, hbids, hcount⟩) tx htx b hb
    · rw [hempty]
      exact Nat.zero_le _
    · rw [← count_of_decodeAll hbids (hfits tx htx b hb)]
      exact hcount tx htx b hb
  · intro hcount
    refine .inr ⟨reference, hdecode, fun tx htx b hb => ?_⟩
    rw [count_of_decodeAll hdecode (hfits tx htx b hb)]
    exact hcount tx htx b hb

/-- Transactions without bids are backed exactly if all that is listed are bids. -/
theorem backs_iff_of_bidless {s : SpecialTransaction} {txs : List Transaction}
    (hbidless : ∀ tx ∈ txs, tx.bids = []) : s.Backs txs ↔ ∀ bytes ∈ s.bids, IsBid bytes := by
  constructor
  · rintro (hempty | ⟨bids, hbids, -⟩)
    · rw [hempty]
      nofun
    · exact exists_decodeAll_iff.1 ⟨bids, hbids⟩
  · intro hlists
    refine (backs_iff_count hlists fun tx htx => ?_).2 fun tx htx => ?_
    · rw [hbidless tx htx]
      nofun
    · rw [hbidless tx htx]
      nofun

end SpecialTransaction

/-! ## A proposal and its verdict -/

/-- Without a size limit, the standard codec leaves nothing out that can be written. -/
theorem Selection.txs_offerAll_standard (s : Selection) {txs : List Transaction}
    (hfits : ∀ tx ∈ txs, tx.Fits) :
    (s.offerAll .standard none txs).txs = s.txs ++ txs.map Transaction.format.encode := by
  induction txs generalizing s with
  | nil => exact (List.append_nil _).symm
  | cons tx rest ih =>
      obtain ⟨htx, hrest⟩ := List.forall_mem_cons.1 hfits
      have hoffer : offer .standard none s tx = s.append (Transaction.format.encode tx) := by
        rw [offer, TxCodec.encode_standard_eq_ok_iff.2 ⟨htx, rfl⟩]
        rfl
      have hstep : s.offerAll .standard none (tx :: rest)
          = (offer .standard none s tx).offerAll .standard none rest := rfl
      rw [hstep, hoffer, ih _ hrest, append, List.map_cons, List.append_assoc, List.singleton_append]

/-- A proposal for a height that calls for a special transaction, made of some votes at one place and
decided on at another, by validators with the same settings and the same codec. -/
structure Round (σ τ : Type) where
  proposer : Validator σ
  validator : Validator τ
  settings_eq : validator.settings = proposer.settings
  codec_eq : validator.codec = proposer.codec
  height : Height
  carries : proposer.settings.specialTxMinHeight ≤ height
  votes : List ExtendedVote
  /-- Where the proposal is prepared. -/
  site : Site σ
  /-- Where it is decided on. -/
  otherSite : Site τ

namespace Round

variable {σ τ : Type} (r : Round σ τ)

/-- The special transaction that comes of the votes. -/
def special : SpecialTransaction := (Aggregate.ofVotes r.height r.votes []).special

/-- The transactions that the proposer would have in its proposal. -/
def offered : List Transaction := (r.proposer.proposedTxs r.height r.site).1.1

def proposal : PreparedProposal := (r.proposer.prepare r.height r.votes r.site).1

def status : ProposalStatus := (r.validator.process r.height r.proposal.txs r.otherSite).1

/-- The transactions are those of the proposal: of what was offered, those whose encodings come behind
the special transaction. -/
structure Proposes (txs : List Transaction) : Prop where
  sublist : txs.Sublist r.offered
  encodes : r.proposer.codec.Encodes txs r.proposal.txs.tail

/-- What is written in the round can be read again: the special transaction is not too long, and the
transactions are read back by the codec, with bids that fit. -/
structure Readable : Prop where
  length : r.special.bids.length < 256 ^ 4
  reads : ∀ tx ∈ r.offered, r.proposer.codec.ReadsBack tx
  fits : ∀ tx ∈ r.offered, ∀ b ∈ tx.bids, b.Fits

variable {r}

/-- A special transaction that is not too long comes first. -/
theorem proposal_eq (hlength : r.special.bids.length < 256 ^ 4) :
    ∃ encoded, r.proposal.txs = r.special.toBytes :: encoded ∧
      ∃ txs, txs.Sublist r.offered ∧ r.proposer.codec.Encodes txs encoded := by
  obtain ⟨rest, chosen, htxs, hsub, hencodes⟩ := r.proposer.prepare_of_fits r.height r.votes r.site
    r.carries (Aggregate.fits_special hlength)
  exact ⟨rest, htxs, chosen, hsub, hencodes⟩

/-- Every proposal has its transactions. -/
theorem exists_proposes (hlength : r.special.bids.length < 256 ^ 4) : ∃ txs, r.Proposes txs := by
  obtain ⟨encoded, hproposal, txs, hsub, hencodes⟩ := r.proposal_eq hlength
  exact ⟨txs, hsub, by rw [hproposal]; exact hencodes⟩

/-- With the standard codec, what fits can be read again. -/
theorem readable_of_fits (hcodec : r.proposer.codec = .standard)
    (hlength : r.special.bids.length < 256 ^ 4) (hfits : ∀ tx ∈ r.offered, tx.Fits) :
    r.Readable where
  length := hlength
  reads tx _ := hcodec ▸ TxCodec.readsBack_standard tx
  fits tx htx := (hfits tx htx).bids

variable {txs : List Transaction}

/-- A proposal is accepted exactly if its special transaction backs its other transactions. -/
theorem status_eq_accept_iff_backs (hr : r.Readable) (htxs : r.Proposes txs) :
    r.status = .accept ↔ r.special.Backs txs := by
  obtain ⟨encoded, hproposal, -⟩ := r.proposal_eq hr.length
  have hencodes := htxs.encodes
  rw [hproposal] at hencodes
  have hstatus : r.status = (Verdict.onProposal r.proposer.settings r.proposer.codec r.height
      (r.special.toBytes :: encoded)).status := by
    rw [← hproposal, ← r.settings_eq, ← r.codec_eq]
    rfl
  have hread : SpecialTransaction.ofBytes r.special.toBytes = .ok r.special :=
    Aggregate.ofBytes_toBytes hr.length
  rw [hstatus, Verdict.onProposal, hread]
  exact Verdict.ofSpecial_eq_accept_iff hencodes (fun tx htx => hr.reads tx (htxs.sublist.subset htx))
    (fun tx htx => hr.fits tx (htxs.sublist.subset htx)) r.height r.special

/-- If all that the votes list are bids, a proposal is accepted exactly if each of its bids makes up
half of them. -/
theorem status_eq_accept_iff_count (hr : r.Readable) (htxs : r.Proposes txs)
    (hlists : ∀ bytes ∈ r.special.bids, IsBid bytes) :
    r.status = .accept ↔ ∀ b ∈ txs.flatMap Transaction.bids,
      r.special.bids.length / 2 ≤ r.special.bids.count b.canonicalBytes := by
  rw [status_eq_accept_iff_backs hr htxs, SpecialTransaction.backs_iff_count hlists fun tx htx =>
    hr.fits tx (htxs.sublist.subset htx)]
  simp only [List.mem_flatMap]
  exact ⟨fun h b ⟨tx, htx, hb⟩ => h tx htx b hb, fun h tx htx b hb => h b ⟨tx, htx, hb⟩⟩

theorem status_eq_reject_iff : r.status = .reject ↔ r.status ≠ .accept :=
  ProposalStatus.eq_reject_iff

/-- Without a size limit, the standard codec gets all that is offered into the proposal, if it can be
written. -/
theorem proposes_offered (hcodec : r.proposer.codec = .standard)
    (hlimit : r.proposer.settings.maxTxBytes = none) (hlength : r.special.bids.length < 256 ^ 4)
    (hfits : ∀ tx ∈ r.offered, tx.Fits) : r.Proposes r.offered where
  sublist := .refl _
  encodes := by
    have hspecial : (Aggregate.ofVotes r.height r.votes []).special.Fits :=
      Aggregate.fits_special hlength
    have hoffered : r.proposer.candidates r.height r.site = r.offered := by
      rw [offered, (r.proposer.proposedTxs_spec r.height r.site).1]
    rw [proposal, Validator.prepare_eq_selected, Validator.selected,
      Validator.afterVotes_eq _ _ _ _ fun _ => hspecial, hoffered, hcodec, hlimit,
      Selection.txs_offerAll_standard _ hfits, Validator.opening, if_pos ⟨r.carries, hspecial⟩]
    exact TxCodec.encodes_standard_iff.2 ⟨hfits, rfl⟩

/-- Of votes that all carry an extension for the height before, all that they list is collected. -/
theorem bids_special {extensions : List VoteExtension}
    (hread : r.votes.map (fun vote => VoteExtension.ofBytes vote.extension) = extensions.map .ok)
    (hheight : ∀ e ∈ extensions, e.height = r.height.previous) :
    r.special.bids = extensions.flatMap VoteExtension.bids := by
  rw [special, Aggregate.ofVotes_of_read hread hheight]

end Round

/-! ## Small proposals

What the instances below are made of: extensions that list a few bids, and proposals for height 3 made
of such votes, by a validator whose builder says what to propose, or by one that has the signed bid
ready. -/

/-- A bid for a name, always of the same owner and the same amount. -/
def bidOn (name : String) : Bid := ⟨name, "addr", "own", [⟨"coin", 5⟩]⟩

theorem fits_bidOn {name : String} (hname : Format.FitsText name) : (bidOn name).Fits where
  name := hname
  resolveAddress := by
    show Format.FitsText "addr"
    decide +kernel
  owner := by
    show Format.FitsText "own"
    decide +kernel
  length := by
    show 1 < 256 ^ 4
    decide
  amount c hc := by
    rw [List.mem_singleton.1 hc]
    show Format.FitsText "coin"
    decide +kernel

theorem fits_of_mem_bidOn {names : List String} (hnames : ∀ name ∈ names, Format.FitsText name) :
    ∀ b ∈ names.map bidOn, b.Fits :=
  List.forall_mem_map.2 fun name hname => fits_bidOn (hnames name hname)

/-- An extension that lists bids for the given names. -/
def listing (height : Height) (names : List String) : VoteExtension :=
  ⟨height, (names.map bidOn).map Bid.canonicalBytes, .empty⟩

theorem listsBids_listing {height : Height} {names : List String}
    (hnames : ∀ name ∈ names, Format.FitsText name) : (listing height names).ListsBids :=
  isBid_of_mem_map (fits_of_mem_bidOn hnames)

theorem fits_listing {height : Height} {names : List String} (hlength : names.length < 256 ^ 4)
    (hnames : ∀ name ∈ names, (bidOn name).canonicalBytes.length < 256 ^ 4) :
    (listing height names).Fits where
  bids_length := by
    rw [listing, List.length_map, List.length_map]
    exact hlength
  bids := List.forall_mem_map.2 (List.forall_mem_map.2 hnames)
  extraInfo_length := Nat.zero_lt_succ _
  extraInfo := nofun

/-- Votes of different validators with the given extensions. -/
def votesOf (extensions : List VoteExtension) : List ExtendedVote :=
  extensions.mapIdx fun i e =>
    ⟨⟨List.replicate 32 (UInt8.ofNat i), List.length_replicate⟩, e.toBytes⟩

theorem ofBytes_votesOf {extensions : List VoteExtension} (hfits : ∀ e ∈ extensions, e.Fits) :
    (votesOf extensions).map (fun vote => VoteExtension.ofBytes vote.extension)
      = extensions.map .ok := by
  refine List.ext_getElem (by simp [votesOf]) fun i hi hi' => ?_
  have hlt : i < extensions.length := by simpa using hi'
  simp only [votesOf, List.getElem_map, List.getElem_mapIdx]
  exact VoteExtension.ofBytes_toBytes (hfits _ (List.getElem_mem hlt))

/-- Only the extensions themselves are read of such votes. -/
theorem mem_of_ofBytes_votesOf {extensions : List VoteExtension} (hfits : ∀ e ∈ extensions, e.Fits)
    {vote : ExtendedVote} (hvote : vote ∈ votesOf extensions) {e : VoteExtension}
    (hread : VoteExtension.ofBytes vote.extension = .ok e) : e ∈ extensions := by
  have hmem : (.ok e : Except DecodeError VoteExtension) ∈ extensions.map .ok := by
    rw [← ofBytes_votesOf hfits, ← hread]
    exact List.mem_map_of_mem (f := fun vote => VoteExtension.ofBytes vote.extension) hvote
  obtain ⟨e', he', heq⟩ := List.mem_map.1 hmem
  exact Except.ok.inj heq ▸ he'

/-- Votes that list bids for short names at height 2 can be used for height 3, and list bids only. -/
theorem votesOf_listings (lists : List (List String))
    (hlists : ∀ names ∈ lists, names.length < 256 ^ 4 ∧ ∀ name ∈ names,
      Format.FitsText name ∧ (bidOn name).canonicalBytes.length < 256 ^ 4) :
    let extensions := lists.map (listing ⟨2⟩)
    (votesOf extensions).map (fun vote => VoteExtension.ofBytes vote.extension)
        = extensions.map .ok ∧
      (∀ e ∈ extensions, e.height = (⟨3⟩ : Height).previous) ∧ ∀ e ∈ extensions, e.ListsBids := by
  intro extensions
  have hfits : ∀ e ∈ extensions, e.Fits := List.forall_mem_map.2 fun names hnames =>
    fits_listing (hlists names hnames).1 fun name hname => ((hlists names hnames).2 name hname).2
  have hprevious : (⟨3⟩ : Height).previous = ⟨2⟩ := by decide
  refine ⟨ofBytes_votesOf hfits, ?_, List.forall_mem_map.2 fun names hnames => ?_⟩
  · rw [hprevious]
    exact List.forall_mem_map.2 fun _ _ => rfl
  · exact listsBids_listing fun name hname => ((hlists names hnames).2 name hname).1

/-- A proposal of the given transactions for height 3, made of the given votes and decided on by its
proposer. -/
def roundOf (txs : List Transaction) (votes : List ExtendedVote) : Round Unit Unit where
  proposer := proposing txs
  validator := proposing txs
  settings_eq := rfl
  codec_eq := rfl
  height := ⟨3⟩
  carries := by
    show (⟨3⟩ : Height) ≤ ⟨3⟩
    decide
  votes := votes
  site := freshSite
  otherSite := freshSite

/-- A proposal for height 3 of all that is ready at a site, made of the given votes by a validator with
the usual settings, and decided on at another site. -/
def plainRound (votes : List ExtendedVote) (site otherSite : Site Unit) : Round Unit Unit where
  proposer := {}
  validator := {}
  settings_eq := rfl
  codec_eq := rfl
  height := ⟨3⟩
  carries := by decide
  votes := votes
  site := site
  otherSite := otherSite

theorem proposes_roundOf {txs : List Transaction} {votes : List ExtendedVote}
    (hlength : (roundOf txs votes).special.bids.length < 256 ^ 4) (hfits : ∀ tx ∈ txs, tx.Fits) :
    (roundOf txs votes).Proposes txs :=
  Round.proposes_offered (r := roundOf txs votes) rfl rfl hlength hfits

/-- A transaction whose only message is of another module. -/
def noBid : Transaction := ⟨[.foreign ⟨"/other", [1, 2]⟩], []⟩

theorem fits_noBid : noBid.Fits := by decide +kernel

/-- What was inserted at a fresh site is ready after an extension. This is said of any transaction, as
with a given one the checker would run the insertion over and over. -/
theorem readyTxs_extend_insertedSite (tx : Transaction) (height : Height) :
    (({} : Validator Unit).extend height (insertedSite tx)).2.mempool.readyTxs
      = (insertedSite tx).mempool.pendingTxs := by
  have hmodules : ({} : Validator Unit).ModulesLeaveMempool := nofun
  have hregular := (reachable_insertedSite tx).regular
  rw [Validator.extend_apply, Validator.readyTxs_extendVote hmodules height (insertedSite tx)
    hregular.indexed hregular.named.pending, readyTxs_insertedSite, List.nil_append]

theorem readyTxs_extend_signedBid (height : Height) :
    (({} : Validator Unit).extend height (insertedSite signedBid)).2.mempool.readyTxs
      = [signedBid] :=
  (readyTxs_extend_insertedSite signedBid height).trans pendingTxs_signedBid

theorem fits_signedBid : signedBid.Fits where
  messages_length := by decide
  signatures_length := by
    show 1 < 256 ^ 4
    decide
  messages := fits_oneBid.messages

section PlainRound

variable {votes : List ExtendedVote} {site otherSite : Site Unit}

theorem offered_plainRound (hready : site.mempool.readyTxs = [signedBid]) :
    (plainRound votes site otherSite).offered = [signedBid] := by
  rw [Round.offered, Validator.proposedTxs_of_withoutBuilder (.inl rfl)]
  exact hready

theorem fits_offered_plainRound (hready : site.mempool.readyTxs = [signedBid]) :
    ∀ tx ∈ (plainRound votes site otherSite).offered, tx.Fits := by
  rw [offered_plainRound hready]
  exact List.forall_mem_singleton.2 fits_signedBid

theorem proposes_plainRound (hready : site.mempool.readyTxs = [signedBid])
    (hlength : (plainRound votes site otherSite).special.bids.length < 256 ^ 4) :
    (plainRound votes site otherSite).Proposes [signedBid] := by
  rw [← offered_plainRound hready]
  exact Round.proposes_offered rfl rfl hlength (fits_offered_plainRound hready)

/-- The signed bid is accepted if it makes up half of what the votes list. -/
theorem status_plainRound (hready : site.mempool.readyTxs = [signedBid]) {listed : List Bytes}
    (hspecial : (plainRound votes site otherSite).special.bids = listed)
    (hlength : listed.length < 256 ^ 4) (hlists : ∀ bytes ∈ listed, IsBid bytes) :
    (plainRound votes site otherSite).status = .accept ↔
      listed.length / 2 ≤ listed.count (bidOn "alpha").canonicalBytes := by
  subst hspecial
  have hreadable := Round.readable_of_fits rfl hlength (fits_offered_plainRound hready)
  have hbids : [signedBid].flatMap Transaction.bids = [bidOn "alpha"] := rfl
  rw [Round.status_eq_accept_iff_count hreadable (proposes_plainRound hready hlength) hlists, hbids,
    List.forall_mem_singleton]

end PlainRound

/-- A transaction with five bids, signed by one account. -/
def fiveBids : Transaction :=
  .sign (["alpha", "beta", "gamma", "delta", "epsilon"].map fun name => .bid (bidOn name))
    [⟨List.replicate 32 8, rfl⟩]

theorem pendingTxs_fiveBids : (insertedSite fiveBids).mempool.pendingTxs = [fiveBids] := by
  decide +kernel

theorem fits_bids_fiveBids : ∀ b ∈ fiveBids.bids, b.Fits := by
  have hbids : fiveBids.bids = ["alpha", "beta", "gamma", "delta", "epsilon"].map bidOn := rfl
  rw [hbids]
  exact fits_of_mem_bidOn (by decide +kernel)

/-! ## Byte strings that are no bids -/

/-- Only what can be read is accepted as an extension. -/
theorem Validator.ofBytes_of_verify_eq_accept {σ : Type} {v : Validator σ} {payload : Bytes}
    {s : Site σ} (h : (v.verify payload s).1 = .accept) :
    ∃ e, VoteExtension.ofBytes payload = .ok e := by
  cases hread : VoteExtension.ofBytes payload with
  | ok e => exact ⟨e, rfl⟩
  | error e =>
      rw [verify, hread] at h
      cases h

namespace ExtendedVote

variable {height : Height} {vote : ExtendedVote}

theorem forall_mem_bidsFor {P : Bytes → Prop} :
    (∀ bytes ∈ vote.bidsFor height, P bytes) ↔
      ∀ e, VoteExtension.ofBytes vote.extension = .ok e → e.height = height →
        ∀ bytes ∈ e.bids, P bytes := by
  unfold bidsFor
  cases VoteExtension.ofBytes vote.extension with
  | error e => simp
  | ok e => by_cases hheight : e.height = height <;> simp [hheight]

/-- An extension for another height is left out. -/
theorem leftOut?_of_height_ne {e : VoteExtension} (hne : vote.extension ≠ [])
    (hread : VoteExtension.ofBytes vote.extension = .ok e) (hheight : e.height ≠ height) :
    vote.leftOut? height = some (.heightMismatch vote.validator e.height) := by
  have hempty : vote.extension.isEmpty = false := by simpa using hne
  simp only [leftOut?, hempty, hread, hheight, if_false, Bool.false_eq_true]

end ExtendedVote

variable {σ τ ρ : Type}

/-- What a vote cannot be used for is reported in the proposal. -/
theorem Round.mem_skipped {r : Round σ τ} {vote : ExtendedVote} (hvote : vote ∈ r.votes)
    {item : SkippedItem} (hitem : vote.leftOut? r.height.previous = some item) :
    item ∈ r.proposal.skipped := by
  have hmem : item ∈ r.proposal.skipped.filter SkippedItem.isExtension := by
    rw [proposal, Validator.filter_skipped_prepare _ r.carries]
    exact List.mem_filterMap.2 ⟨vote, hvote, hitem⟩
  exact (List.mem_filter.1 hmem).1

/-- All that an extension for the height before lists goes into the special transaction, in one
piece. -/
theorem Round.infix_special {r : Round σ τ} {vote : ExtendedVote} (hvote : vote ∈ r.votes)
    {e : VoteExtension} (hread : VoteExtension.ofBytes vote.extension = .ok e)
    (hheight : e.height = r.height.previous) : e.bids <:+: r.special.bids := by
  rw [special, Aggregate.ofVotes_eq, ← ExtendedVote.bidsFor_of_ofBytes hread hheight]
  exact List.infix_of_mem_flatten (List.mem_map_of_mem hvote)

/-- **Without bids to measure.** Suppose that every extension among the votes was accepted when it was
checked, and that the transactions of the proposal carry no bids. Then each extension is used, with all
that it lists, or, if it is for another height, reported; and the proposal is accepted exactly if all
that the used ones list are bids. -/
theorem accept_bidless_iff_listsBids (r : Round σ τ) (hr : r.Readable) {txs : List Transaction}
    (htxs : r.Proposes txs) (hbidless : ∀ tx ∈ txs, tx.bids = [])
    (hverified : ∀ vote ∈ r.votes, vote.extension ≠ [] →
      ∃ (checker : Validator ρ) (s : Site ρ), (checker.verify vote.extension s).1 = .accept) :
    (r.status = .accept ↔
      ∀ vote ∈ r.votes, ∀ e, VoteExtension.ofBytes vote.extension = .ok e →
        e.height = r.height.previous → e.ListsBids) ∧
    ∀ vote ∈ r.votes, vote.extension ≠ [] →
      ∃ e, VoteExtension.ofBytes vote.extension = .ok e ∧
        (e.height = r.height.previous ∧ e.bids <:+: r.special.bids ∨
          .heightMismatch vote.validator e.height ∈ r.proposal.skipped) := by
  constructor
  · have hbids : r.special.bids = r.votes.flatMap (·.bidsFor r.height.previous) := by
      rw [Round.special, Aggregate.ofVotes_eq]
    rw [Round.status_eq_accept_iff_backs hr htxs, SpecialTransaction.backs_iff_of_bidless hbidless,
      hbids, List.forall_mem_flatMap]
    simp only [ExtendedVote.forall_mem_bidsFor]
    exact Iff.rfl
  · intro vote hvote hne
    obtain ⟨checker, s, haccept⟩ := hverified vote hvote hne
    obtain ⟨e, hread⟩ := Validator.ofBytes_of_verify_eq_accept haccept
    refine ⟨e, hread, ?_⟩
    by_cases hheight : e.height = r.height.previous
    · exact .inl ⟨hheight, Round.infix_special hvote hread hheight⟩
    · exact .inr (Round.mem_skipped hvote (ExtendedVote.leftOut?_of_height_ne hne hread hheight))

/-- What is used of two votes lists a bid, and the vote that is not used is reported. -/
theorem accept_bidless_of_two_votes :
    let votes := votesOf [listing ⟨2⟩ ["alpha"], listing ⟨1⟩ ["beta"]]
    let r := roundOf [noBid] votes
    r.status = .accept ∧ ∀ vote ∈ votes, ∃ e, VoteExtension.ofBytes vote.extension = .ok e ∧
      (e.height = ⟨2⟩ ∧ e.bids <:+: r.special.bids ∨
        .heightMismatch vote.validator e.height ∈ r.proposal.skipped) := by
  intro votes r
  have hverified : ∀ vote ∈ votes, vote.extension ≠ [] ∧
      (({} : Validator Unit).verify vote.extension freshSite).1 = .accept := by
    decide +kernel
  have hlength : r.special.bids.length < 256 ^ 4 := by decide +kernel
  have hfitsNoBid : ∀ tx ∈ [noBid], tx.Fits := List.forall_mem_singleton.2 fits_noBid
  obtain ⟨haccept, hused⟩ := accept_bidless_iff_listsBids r
    (Round.readable_of_fits rfl hlength hfitsNoBid) (proposes_roundOf hlength hfitsNoBid)
    (List.forall_mem_singleton.2 rfl)
    fun vote hvote _ => ⟨({} : Validator Unit), freshSite, (hverified vote hvote).2⟩
  have hprevious : r.height.previous = ⟨2⟩ := by decide
  rw [hprevious] at haccept hused
  refine ⟨haccept.2 ?_, fun vote hvote => hused vote hvote (hverified vote hvote).1⟩
  have hfits : ∀ e ∈ [listing ⟨2⟩ ["alpha"], listing ⟨1⟩ ["beta"]], e.Fits :=
    List.forall_mem_cons.2 ⟨fits_listing (by decide) (by decide +kernel),
      List.forall_mem_singleton.2 (fits_listing (by decide) (by decide +kernel))⟩
  have hlists : ∀ e ∈ [listing ⟨2⟩ ["alpha"], listing ⟨1⟩ ["beta"]], e.ListsBids :=
    List.forall_mem_cons.2 ⟨listsBids_listing (by decide +kernel),
      List.forall_mem_singleton.2 (listsBids_listing (by decide +kernel))⟩
  exact fun vote hvote e hread _ => hlists e (mem_of_ofBytes_votesOf hfits hvote hread)

/-- One byte string that is no bid, in an extension that was accepted, and a proposal without any
transactions is rejected. -/
theorem reject_bidless_of_junk :
    let v : Validator Unit := {}
    let vote : ExtendedVote :=
      ⟨⟨List.replicate 32 0, rfl⟩, (VoteExtension.mk ⟨2⟩ [[255]] .empty).toBytes⟩
    let proposal := (v.prepare ⟨3⟩ [vote] freshSite).1
    v.settings.specialTxMinHeight ≤ ⟨3⟩ ∧ (v.verify vote.extension freshSite).1 = .accept ∧
      v.ordinaryTxs ⟨3⟩ [vote] proposal.txs = [] ∧ proposal.skipped = [] ∧
      (v.process ⟨3⟩ proposal.txs freshSite).1 = .reject := by
  decide +kernel

/-! ## Bids that all votes witnessed -/

/-- If some element of each part has a property, there are at least as many such elements as parts. -/
theorem length_le_countP_flatMap {ι α : Type} {f : ι → List α} {p : α → Bool} {parts : List ι}
    (h : ∀ i ∈ parts, ∃ x ∈ f i, p x) : parts.length ≤ (parts.flatMap f).countP p := by
  induction parts with
  | nil => exact Nat.zero_le _
  | cons i parts ih =>
      obtain ⟨hfirst, hrest⟩ := List.forall_mem_cons.1 h
      have hpos : 0 < (f i).countP p := List.countP_pos_iff.2 hfirst
      have hle := ih hrest
      rw [List.flatMap_cons, List.countP_append, List.length_cons]
      omega

/-- Validators that extended their votes list bids only. -/
theorem Voter.listsBids_extension {w : Voter ρ} {height : Height} (hw : w.Fits height) :
    (w.extension height).ListsBids := by
  rw [VoteExtension.ListsBids, Voter.bids_extension hw.bids]
  exact isBid_of_mem_map hw.bids

/-- **A bid that everyone witnessed.** Validators extend their votes for a height, and the proposal
for the next is made of all of these votes. If the bid is in every extension, and the only one that
the proposal carries, then it is accepted exactly if the bid makes up half of what the extensions
list. That is so at least as long as they list no more than one bid beyond two each. -/
theorem accept_unanimous_iff (voters : List (Voter ρ)) (height : Height)
    (hlast : height.number.toNat + 1 < 2 ^ 64) (hfits : ∀ w ∈ voters, w.Fits height)
    (r : Round σ τ) (hheight : r.height = height.next)
    (hvotes : r.votes = voters.map (·.vote height)) (hr : r.Readable) {txs : List Transaction}
    (htxs : r.Proposes txs) {b : Bid}
    (hunanimous : ∀ w ∈ voters, b.canonicalBytes ∈ (w.extension height).bids)
    (honly : ∀ a, a ∈ txs.flatMap Transaction.bids ↔ a = b) :
    let listed := voters.flatMap fun w => (w.extension height).bids
    (r.status = .accept ↔ listed.length / 2 ≤ listed.count b.canonicalBytes) ∧
    (listed.length ≤ 2 * voters.length + 1 → r.status = .accept) := by
  intro listed
  have hread : r.votes.map (fun vote => VoteExtension.ofBytes vote.extension)
      = (voters.map (·.extension height)).map .ok := by
    rw [hvotes]
    exact Voter.ofBytes_votes hfits
  have hheights : ∀ e ∈ voters.map (·.extension height), e.height = r.height.previous := by
    rw [hheight]
    exact Voter.height_extension hlast
  have hspecial : r.special.bids = listed := by
    rw [Round.bids_special hread hheights, List.flatMap_map]
  have hlists : ∀ bytes ∈ r.special.bids, IsBid bytes := by
    rw [hspecial]
    exact List.forall_mem_flatMap.2 fun w hw => Voter.listsBids_extension (hfits w hw)
  have haccept : r.status = .accept ↔ listed.length / 2 ≤ listed.count b.canonicalBytes := by
    rw [Round.status_eq_accept_iff_count hr htxs hlists, hspecial]
    simp only [honly, forall_eq]
  refine ⟨haccept, fun hfew => haccept.2 ?_⟩
  -- Each of the extensions lists the bid at least once.
  have hcount : voters.length ≤ listed.count b.canonicalBytes :=
    length_le_countP_flatMap fun w hw => ⟨_, hunanimous w hw, beq_self_eq_true _⟩
  omega

/-- Two validators that witnessed the same bid and nothing else have it accepted. -/
theorem accept_unanimous_of_two_voters :
    let voters := [plainVoter 0 (insertedSite signedBid), plainVoter 1 (insertedSite signedBid)]
    (roundOf [oneBid] (voters.map (·.vote ⟨2⟩))).status = .accept := by
  intro voters
  have hfits : ∀ w ∈ voters, w.Fits ⟨2⟩ :=
    List.forall_mem_cons.2 ⟨fits_plainVoter_signedBid pendingTxs_signedBid _,
      List.forall_mem_singleton.2 (fits_plainVoter_signedBid pendingTxs_signedBid _)⟩
  have hlisted : voters.flatMap (fun w => (w.extension ⟨2⟩).bids)
      = signedBid.witness ++ signedBid.witness := by
    rw [List.flatMap_cons, List.flatMap_singleton, bids_extension_plainVoter_signedBid,
      bids_extension_plainVoter_signedBid]
  have hspecial : (roundOf [oneBid] (voters.map (·.vote ⟨2⟩))).special.bids
      = signedBid.witness ++ signedBid.witness := by
    rw [← hlisted, Round.bids_special (Voter.ofBytes_votes hfits)
      (Voter.height_extension (by decide)), List.flatMap_map]
  have hlength : (roundOf [oneBid] (voters.map (·.vote ⟨2⟩))).special.bids.length < 256 ^ 4 := by
    rw [hspecial]
    decide
  have hfitsOneBid : ∀ tx ∈ [oneBid], tx.Fits := List.forall_mem_singleton.2 fits_oneBid
  have hreadable : (roundOf [oneBid] (voters.map (·.vote ⟨2⟩))).Readable :=
    Round.readable_of_fits rfl hlength hfitsOneBid
  have hunanimous : ∀ w ∈ voters, (bidOn "alpha").canonicalBytes ∈ (w.extension ⟨2⟩).bids := by
    refine List.forall_mem_cons.2 ⟨?_, List.forall_mem_singleton.2 ?_⟩ <;>
    · rw [bids_extension_plainVoter_signedBid]
      exact List.mem_singleton_self _
  have hproposes : (roundOf [oneBid] (voters.map (·.vote ⟨2⟩))).Proposes [oneBid] :=
    proposes_roundOf hlength hfitsOneBid
  have honly : ∀ a, a ∈ [oneBid].flatMap Transaction.bids ↔ a = bidOn "alpha" :=
    fun a => List.mem_singleton
  have hmain := accept_unanimous_iff voters ⟨2⟩ (by decide) hfits
    (roundOf [oneBid] (voters.map (·.vote ⟨2⟩))) rfl rfl hreadable hproposes hunanimous honly
  refine hmain.2 ?_
  rw [hlisted]
  show 2 ≤ 2 * 2 + 1
  decide

/-- Of two validators both witnessed a bid, but one of them four others as well: a proposal that
carries that bid alone is rejected. -/
theorem reject_unanimous_among_five :
    let voters := [plainVoter 0 (insertedSite signedBid), plainVoter 1 (insertedSite fiveBids)]
    let r := plainRound (voters.map (·.vote ⟨2⟩))
      (({} : Validator Unit).extend ⟨2⟩ (insertedSite signedBid)).2 (insertedSite fiveBids)
    (∀ w ∈ voters, (bidOn "alpha").canonicalBytes ∈ (w.extension ⟨2⟩).bids) ∧
      r.Proposes [signedBid] ∧ signedBid.bids = [bidOn "alpha"] ∧ r.status = .reject := by
  intro voters r
  have hready := readyTxs_extend_signedBid ⟨2⟩
  have hfits : ∀ w ∈ voters, w.Fits ⟨2⟩ :=
    List.forall_mem_cons.2 ⟨fits_plainVoter_signedBid pendingTxs_signedBid _,
      List.forall_mem_singleton.2 (fits_plainVoter pendingTxs_fiveBids (by decide +kernel)
        (by decide +kernel) fits_bids_fiveBids _)⟩
  have hspecial : r.special.bids = signedBid.witness ++ fiveBids.witness := by
    rw [Round.bids_special (Voter.ofBytes_votes hfits) (Voter.height_extension (by decide)),
      List.flatMap_map, List.flatMap_cons, List.flatMap_singleton,
      bids_extension_plainVoter_signedBid,
      bids_extension_plainVoter pendingTxs_fiveBids fits_bids_fiveBids]
  have hlists : ∀ bytes ∈ signedBid.witness ++ fiveBids.witness, IsBid bytes :=
    List.forall_mem_append.2
      ⟨isBid_of_mem_map fits_oneBid.bids, isBid_of_mem_map fits_bids_fiveBids⟩
  have hlength : (signedBid.witness ++ fiveBids.witness).length < 256 ^ 4 := by
    decide +kernel
  have hreject : r.status = .reject := by
    rw [Round.status_eq_reject_iff, ne_eq, status_plainRound hready hspecial hlength hlists]
    decide +kernel
  refine ⟨List.forall_mem_cons.2 ⟨?_, List.forall_mem_singleton.2 ?_⟩,
    proposes_plainRound hready (hspecial ▸ hlength), rfl, hreject⟩
  · rw [bids_extension_plainVoter_signedBid]
    exact List.mem_cons_self
  · rw [bids_extension_plainVoter pendingTxs_fiveBids fits_bids_fiveBids]
    exact List.mem_cons_self

/-! ## Bids that one vote alone witnessed -/

/-- **A bid that one vote alone witnessed.** All votes carry an extension for the height before, and
all that these list are bids. If a bid of the proposal is listed in a single one of them, then it is
how often this one lists it that counts: less than half of all, and the proposal is rejected; and if
there is no other bid in the proposal, from there on it is accepted. Among four votes or more that
all list something, once is too little. -/
theorem verdict_on_lone_bid (r : Round σ τ) (hr : r.Readable) {txs : List Transaction}
    (htxs : r.Proposes txs) {before after : List VoteExtension} {lone : VoteExtension}
    (hread : r.votes.map (fun vote => VoteExtension.ofBytes vote.extension)
      = (before ++ lone :: after).map .ok)
    (hheight : ∀ e ∈ before ++ lone :: after, e.height = r.height.previous)
    (hlists : ∀ e ∈ before ++ lone :: after, e.ListsBids) {b : Bid}
    (hlone : ∀ e ∈ before ++ after, b.canonicalBytes ∉ e.bids)
    (hb : b ∈ txs.flatMap Transaction.bids) :
    let copies := lone.bids.count b.canonicalBytes
    let total := ((before ++ lone :: after).flatMap VoteExtension.bids).length
    (copies < total / 2 → r.status = .reject) ∧
    ((∀ a ∈ txs.flatMap Transaction.bids, a = b) → total / 2 ≤ copies → r.status = .accept) ∧
    (4 ≤ r.votes.length → (∀ e ∈ before ++ lone :: after, e.bids ≠ []) → copies = 1 →
      r.status = .reject) := by
  intro copies total
  have hspecial := Round.bids_special hread hheight
  have haccept : r.status = .accept ↔ ∀ a ∈ txs.flatMap Transaction.bids,
      total / 2 ≤ r.special.bids.count a.canonicalBytes := by
    rw [Round.status_eq_accept_iff_count hr htxs]
    · rw [hspecial]
    · rw [hspecial]
      exact List.forall_mem_flatMap.2 hlists
  have hcopies : r.special.bids.count b.canonicalBytes = copies := by
    -- The other extensions, on either side, do not list the bid at all.
    have hnone : ∀ es ⊆ before ++ after,
        (es.flatMap VoteExtension.bids).count b.canonicalBytes = 0 := by
      intro es hes
      rw [List.count_eq_zero, List.mem_flatMap]
      rintro ⟨e, he, hbytes⟩
      exact hlone e (hes he) hbytes
    rw [hspecial, List.flatMap_append, List.flatMap_cons, List.count_append, List.count_append,
      hnone before (List.subset_append_left _ _), hnone after (List.subset_append_right _ _),
      Nat.zero_add, Nat.add_zero]
  have hreject : copies < total / 2 → r.status = .reject := by
    intro hfew
    refine Round.status_eq_reject_iff.2 fun h => ?_
    have hcount := haccept.1 h b hb
    omega
  refine ⟨hreject, fun honly hmany => haccept.2 fun a ha => ?_, fun hvotes hnonempty hone => ?_⟩
  · rw [honly a ha, hcopies]
    exact hmany
  · have hlength : r.votes.length = (before ++ lone :: after).length := by
      simpa using congrArg List.length hread
    -- With something listed in each, there are at least as many bids as votes.
    have htotal : (before ++ lone :: after).length ≤ total := by
      have hle := length_le_countP_flatMap (f := VoteExtension.bids) (p := fun _ => true)
        fun e he => ⟨_, List.head_mem (hnonempty e he), rfl⟩
      rwa [List.countP_true] at hle
    refine hreject ?_
    omega

/-- Among four votes, a bid that one of them lists once is rejected. -/
theorem reject_lone_among_four :
    let others := [["beta"], ["beta"], ["beta"]].map (listing ⟨2⟩)
    let extensions := [] ++ listing ⟨2⟩ ["alpha"] :: others
    (roundOf [oneBid] (votesOf extensions)).status = .reject := by
  intro others extensions
  have hextensions : extensions = [["alpha"], ["beta"], ["beta"], ["beta"]].map (listing ⟨2⟩) := rfl
  obtain ⟨hread, hheight, hlists⟩ :=
    votesOf_listings [["alpha"], ["beta"], ["beta"], ["beta"]] (by decide +kernel)
  rw [← hextensions] at hread hheight hlists
  have hlone : ∀ e ∈ [] ++ others, (bidOn "alpha").canonicalBytes ∉ e.bids := by
    decide +kernel
  have hlength : (roundOf [oneBid] (votesOf extensions)).special.bids.length < 256 ^ 4 := by
    decide +kernel
  have hfits : ∀ tx ∈ [oneBid], tx.Fits := List.forall_mem_singleton.2 fits_oneBid
  obtain ⟨-, -, hreject⟩ := verdict_on_lone_bid _ (Round.readable_of_fits rfl hlength hfits)
    (proposes_roundOf hlength hfits) hread hheight hlists hlone (List.mem_singleton_self _)
  exact hreject (by decide) (by decide +kernel) (by decide +kernel)

/-- Among four votes, a bid that one of them lists twice is accepted. -/
theorem accept_lone_listed_twice :
    let others := [["beta"], ["beta"], ["beta"]].map (listing ⟨2⟩)
    let extensions := listing ⟨2⟩ ["alpha", "alpha"] :: others
    let r := plainRound (votesOf extensions)
      (({} : Validator Unit).extend ⟨1⟩ (insertedSite signedBid)).2 freshSite
    (∀ vote ∈ r.votes, (({} : Validator Unit).verify vote.extension freshSite).1 = .accept) ∧
      r.votes.map (fun vote => VoteExtension.ofBytes vote.extension) = extensions.map .ok ∧
      (∀ e ∈ extensions, e.height = r.height.previous ∧ e.ListsBids) ∧
      (∀ e ∈ others, (bidOn "alpha").canonicalBytes ∉ e.bids) ∧
      r.Proposes [signedBid] ∧ bidOn "alpha" ∈ signedBid.bids ∧ r.status = .accept := by
  intro others extensions r
  have hready := readyTxs_extend_signedBid ⟨1⟩
  have hextensions : extensions
      = [["alpha", "alpha"], ["beta"], ["beta"], ["beta"]].map (listing ⟨2⟩) := rfl
  obtain ⟨hread, hheight, hlists⟩ :=
    votesOf_listings [["alpha", "alpha"], ["beta"], ["beta"], ["beta"]] (by decide +kernel)
  rw [← hextensions] at hread hheight hlists
  have hspecial : r.special.bids = extensions.flatMap VoteExtension.bids :=
    Round.bids_special hread hheight
  have hlength : (extensions.flatMap VoteExtension.bids).length < 256 ^ 4 := by
    decide +kernel
  have haccept : r.status = .accept := by
    rw [status_plainRound hready hspecial hlength (List.forall_mem_flatMap.2 hlists)]
    decide +kernel
  have hverified : ∀ vote ∈ votesOf extensions,
      (({} : Validator Unit).verify vote.extension freshSite).1 = .accept := by
    decide +kernel
  exact ⟨hverified, hread, fun e he => ⟨hheight e he, hlists e he⟩, by decide +kernel,
    proposes_plainRound hready (hspecial ▸ hlength), List.mem_singleton_self _, haccept⟩

end BidQuorum
