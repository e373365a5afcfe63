import BidQuorum.Proofs.Action

set_option autoImplicit false

/-! # What a proposal is made of

Behind the special transaction, if there is one, a prepared proposal holds encodings of some of the
transactions that were to be proposed, in their order. This is so for every size limit and whatever
the codec refuses. Each of these transactions has its fate: it goes into the proposal or is reported as
left out, and which of the two is settled by the byte strings that are in the proposal when its turn
comes (`Fate.Due`). A selection is followed offer by offer (`Selection.Sized.exists_fates`), and what
holds of whole proposals comes of that (`Validator.exists_fates`). -/

namespace BidQuorum

/-- The byte strings are what the codec makes of the transactions, one for each. -/
def TxCodec.Encodes (codec : TxCodec) (txs : List Transaction) (encoded : List Bytes) : Prop :=
  txs.map codec.encode = encoded.map .ok

/-! ## Sizes -/

/-- The size of byte strings, all together. -/
def totalSize (txs : List Bytes) : Nat := txs.flatten.length

@[simp] theorem totalSize_append (txs more : List Bytes) :
    totalSize (txs ++ more) = totalSize txs + totalSize more := by
  rw [totalSize, List.flatten_append, List.length_append]
  rfl

@[simp] theorem totalSize_singleton (bytes : Bytes) : totalSize [bytes] = bytes.length := by
  simp [totalSize]

/-- The byte strings are within the limit, if there is one. -/
def WithinLimit (limit : Option UInt64) (txs : List Bytes) : Prop :=
  ∀ most, limit = some most → totalSize txs ≤ most.toNat

theorem WithinLimit.of_append {limit : Option UInt64} {txs more : List Bytes}
    (h : WithinLimit limit (txs ++ more)) : WithinLimit limit txs := by
  intro most hmost
  have hle := h most hmost
  rw [totalSize_append] at hle
  omega

/-! ## Fates -/

/-- What becomes of a transaction that is to be proposed. -/
inductive Fate where
  /-- It goes into the proposal as these bytes. -/
  | included (bytes : Bytes)
  /-- It is left out, and reported so. -/
  | leftOut (item : SkippedItem)

namespace Fate

/-- What the transaction puts into the proposal. -/
def placed : Fate → List Bytes
  | included bytes => [bytes]
  | leftOut _ => []

/-- What is reported of the transaction. -/
def reported : Fate → List SkippedItem
  | included _ => []
  | leftOut item => [item]

/-- The fate that a transaction has to have when it comes behind the byte strings `already`. -/
inductive Due (codec : TxCodec) (limit : Option UInt64) (already : List Bytes) (tx : Transaction) :
    Fate → Prop
  | included {bytes : Bytes} (encoded : codec.encode tx = .ok bytes)
      (within : WithinLimit limit (already ++ [bytes])) : Due codec limit already tx (.included bytes)
  | unencodable {e : CodecError} (refused : codec.encode tx = .error e) :
      Due codec limit already tx (.leftOut (.unencodable tx.computeHash.toOption e.message))
  | tooLarge {bytes : Bytes} (encoded : codec.encode tx = .ok bytes)
      (beyond : ¬ WithinLimit limit (already ++ [bytes])) :
      Due codec limit already tx (.leftOut (.tooLarge tx.computeHash.toOption bytes.length))

/-- The fates of transactions that come one after another behind `already`. -/
inductive AllDue (codec : TxCodec) (limit : Option UInt64) :
    List Bytes → List Transaction → List Fate → Prop
  | nil (already : List Bytes) : AllDue codec limit already [] []
  | cons {already : List Bytes} {tx : Transaction} {fate : Fate} {txs : List Transaction}
      {fates : List Fate} (first : fate.Due codec limit already tx)
      (rest : AllDue codec limit (already ++ fate.placed) txs fates) :
      AllDue codec limit already (tx :: txs) (fate :: fates)

variable {codec : TxCodec} {limit : Option UInt64} {already : List Bytes} {txs : List Transaction}
  {fates : List Fate}

theorem AllDue.length_eq (h : AllDue codec limit already txs fates) :
    fates.length = txs.length := by
  induction h with
  | nil => rfl
  | cons first rest ih => rw [List.length_cons, List.length_cons, ih]

/-- Each transaction has its fate behind all that is in the proposal before it. -/
theorem AllDue.due (h : AllDue codec limit already txs fates) {i : Nat} {tx : Transaction}
    {fate : Fate} (htx : txs[i]? = some tx) (hfate : fates[i]? = some fate) :
    fate.Due codec limit (already ++ (fates.take i).flatMap placed) tx := by
  induction h generalizing i with
  | nil => cases htx
  | cons first rest ih =>
      cases i with
      | zero =>
          cases htx
          cases hfate
          rw [List.take_zero, List.flatMap_nil, List.append_nil]
          exact first
      | succ i =>
          rw [List.take_succ_cons, List.flatMap_cons, ← List.append_assoc]
          exact ih htx hfate

/-- The included transactions are some of them, in order. -/
theorem AllDue.exists_chosen (h : AllDue codec limit already txs fates) :
    ∃ chosen, List.Sublist chosen txs ∧ codec.Encodes chosen (fates.flatMap placed) := by
  induction h with
  | nil => exact ⟨[], .slnil, rfl⟩
  | @cons _ tx _ _ fates first rest ih =>
      obtain ⟨chosen, hsub, hencodes⟩ := ih
      cases first with
      | @included bytes encoded within =>
          refine ⟨tx :: chosen, hsub.cons_cons tx, ?_⟩
          show (tx :: chosen).map codec.encode = (bytes :: fates.flatMap placed).map .ok
          rw [List.map_cons, List.map_cons, encoded, hencodes]
      | unencodable refused => exact ⟨chosen, hsub.cons tx, hencodes⟩
      | tooLarge encoded beyond => exact ⟨chosen, hsub.cons tx, hencodes⟩

/-- What is within the limit stays within it. -/
theorem AllDue.withinLimit (h : AllDue codec limit already txs fates)
    (halready : WithinLimit limit already) : WithinLimit limit (already ++ fates.flatMap placed) := by
  induction h with
  | nil => rwa [List.flatMap_nil, List.append_nil]
  | cons first rest ih =>
      rw [List.flatMap_cons, ← List.append_assoc]
      refine ih ?_
      cases first with
      | included encoded within => exact within
      | unencodable refused => rwa [placed, List.append_nil]
      | tooLarge encoded beyond => rwa [placed, List.append_nil]

/-- Nothing is put behind what is beyond the limit. -/
theorem AllDue.placed_eq_nil (h : AllDue codec limit already txs fates)
    (halready : ¬ WithinLimit limit already) : fates.flatMap placed = [] := by
  induction h with
  | nil => rfl
  | cons first rest ih =>
      cases first with
      | included encoded within => exact absurd within.of_append halready
      | unencodable refused => exact ih (by rwa [placed, List.append_nil])
      | tooLarge encoded beyond => exact ih (by rwa [placed, List.append_nil])

end Fate

/-! ## Selecting -/

namespace Selection

variable {s : Selection}

/-- The size so far is that of what has been selected. -/
def Sized (s : Selection) : Prop := s.used = totalSize s.txs

theorem Sized.fits_iff (hs : s.Sized) (limit : Option UInt64) (bytes : Bytes) :
    s.fits limit bytes.length ↔ WithinLimit limit (s.txs ++ [bytes]) := by
  rw [WithinLimit, totalSize_append, totalSize_singleton, ← hs]
  cases limit with
  | none => simp [fits]
  | some most => simp [fits]

/-- An offered transaction meets the fate that is due to it. -/
theorem Sized.offer (hs : s.Sized) (codec : TxCodec) (limit : Option UInt64) (tx : Transaction) :
    ∃ fate : Fate, fate.Due codec limit s.txs tx ∧
      (s.offer codec limit tx).txs = s.txs ++ fate.placed ∧
      (s.offer codec limit tx).skipped = s.skipped ++ fate.reported ∧
      (s.offer codec limit tx).Sized := by
  rw [Selection.offer]
  cases hencode : codec.encode tx with
  | error e => exact ⟨_, .unencodable hencode, (List.append_nil _).symm, rfl, hs⟩
  | ok bytes =>
      have hfits := hs.fits_iff limit bytes
      by_cases hwithin : WithinLimit limit (s.txs ++ [bytes])
      · simp only [hfits.2 hwithin, if_true]
        refine ⟨_, .included hencode hwithin, rfl, (List.append_nil _).symm, ?_⟩
        rw [Sized, append, totalSize_append, totalSize_singleton, hs]
      · simp only [mt hfits.1 hwithin]
        exact ⟨_, .tooLarge hencode hwithin, (List.append_nil _).symm, rfl, hs⟩

/-- Offered transactions meet the fates that are due to them, one after another. -/
theorem Sized.exists_fates (hs : s.Sized) (codec : TxCodec) (limit : Option UInt64)
    (txs : List Transaction) :
    ∃ fates, Fate.AllDue codec limit s.txs txs fates ∧
      (s.offerAll codec limit txs).txs = s.txs ++ fates.flatMap Fate.placed ∧
      (s.offerAll codec limit txs).skipped = s.skipped ++ fates.flatMap Fate.reported := by
  induction txs generalizing s with
  | nil => exact ⟨[], .nil _, (List.append_nil _).symm, (List.append_nil _).symm⟩
  | cons tx rest ih =>
      obtain ⟨fate, hdue, htxs, hskipped, hsized⟩ := hs.offer codec limit tx
      obtain ⟨fates, hfates, hresttxs, hrestskipped⟩ := ih hsized
      have hstep : s.offerAll codec limit (tx :: rest)
          = (s.offer codec limit tx).offerAll codec limit rest := rfl
      rw [htxs] at hfates
      refine ⟨fate :: fates, .cons hdue hfates, ?_, ?_⟩
      · rw [hstep, hresttxs, htxs, List.append_assoc, List.flatMap_cons]
      · rw [hstep, hrestskipped, hskipped, List.append_assoc, List.flatMap_cons]

end Selection

/-! ## What there is to propose -/

namespace Validator

variable {σ : Type} (v : Validator σ) (height : Height) (votes : List ExtendedVote) (s : Site σ)

/-- What the proposal builder answers, if there is one and it is to be used. -/
def built? : Option (Except String (List Transaction)) :=
  if v.settings.runProposalBuilder then
    v.builder.map fun build => (build height s.mempool.readyTxs s).1
  else none

/-- The transactions that are to be proposed: those of the builder if it is used and succeeds, and
otherwise the ready ones. -/
def candidates : List Transaction :=
  match v.built? height s with
  | some (.ok txs) => txs
  | _ => s.mempool.readyTxs

/-- What is reported of the builder. -/
def builderReport : List SkippedItem :=
  match v.built? height s with
  | some (.error reason) => [.builderFailure reason]
  | _ => []

/-- What a proposal starts with: the special transaction, if the settings call for one and it can be
written. -/
def opening : List Bytes :=
  let special := (Aggregate.ofVotes height votes []).special
  if v.settings.specialTxMinHeight ≤ height ∧ special.Fits then [special.toBytes] else []

/-- The number of reference bids, if there is a special transaction. -/
def specialTxBids? : Option Nat :=
  let special := (Aggregate.ofVotes height votes []).special
  if v.settings.specialTxMinHeight ≤ height ∧ special.Fits then some special.bids.length else none

/-- What is reported of the votes, if they are collected, and of the special transaction, if it cannot
be written. -/
def votesReport : List SkippedItem :=
  let a := Aggregate.ofVotes height votes []
  if v.settings.specialTxMinHeight ≤ height then
    a.skipped ++ if a.special.Fits then [] else [.specialTransaction Format.tooLong]
  else []

/-- The site once the votes have been collected. Only the log may have changed, to say that the special
transaction cannot be written. -/
def afterVotes : Site σ := (v.specialTx height votes s).2

/-- The builder, if it is used, does nothing but build: it may look around and keep a state of its own,
but neither calls the mempool nor publishes anything. -/
def BuilderOnlyBuilds : Prop :=
  ∀ build, v.builder = some build → v.settings.runProposalBuilder → ∀ height txs s,
    (build height txs s).2.mempool = s.mempool ∧ (build height txs s).2.events = s.events

theorem exists_builder_of_not {v : Validator σ} (hv : ¬ v.WithoutBuilder) :
    ∃ build, v.builder = some build ∧ v.settings.runProposalBuilder = true := by
  rw [WithoutBuilder, not_or, Bool.not_eq_false] at hv
  obtain ⟨build, hbuild⟩ := Option.ne_none_iff_exists'.1 hv.1
  exact ⟨build, hbuild, hv.2⟩

/-- What a builder that is used makes of the ready transactions is what there is to propose. -/
theorem proposedTxs_of_builder {build : ProposalBuilder σ} (hbuild : v.builder = some build)
    (hrun : v.settings.runProposalBuilder) :
    v.proposedTxs height s =
      let built := build height s.mempool.readyTxs s
      match built.1 with
      | .ok txs => ((txs, []), built.2)
      | .error reason => ((s.mempool.readyTxs, [.builderFailure reason]),
          { built.2 with log := built.2.log ++
            [⟨.error, s!"Proposal builder failed at height {height}: {reason}"⟩] }) := by
  have hready : (Action.mempool : Action σ Mempool) s = (s.mempool, s) := rfl
  rw [proposedTxs, Action.bind_apply, hready, hbuild]
  simp only [hrun, if_true, Action.bind_apply]
  cases (build height s.mempool.readyTxs s).1 <;> rfl

theorem built?_of_withoutBuilder (hv : v.WithoutBuilder) : v.built? height s = none := by
  rw [built?]
  rcases hv with hv | hv <;> simp [hv]

theorem built?_of_builder {build : ProposalBuilder σ} (hbuild : v.builder = some build)
    (hrun : v.settings.runProposalBuilder) :
    v.built? height s = some (build height s.mempool.readyTxs s).1 := by
  rw [built?, hbuild, if_pos hrun]
  rfl

/-- What is chosen is what there is to propose, and in choosing it a builder that only builds leaves no
trace. -/
theorem proposedTxs_spec :
    (v.proposedTxs height s).1 = (v.candidates height s, v.builderReport height s) ∧
    (v.BuilderOnlyBuilds → (v.proposedTxs height s).2.mempool = s.mempool ∧
      (v.proposedTxs height s).2.events = s.events) := by
  rw [candidates, builderReport]
  by_cases hwithout : v.WithoutBuilder
  · rw [proposedTxs_of_withoutBuilder hwithout, built?_of_withoutBuilder v height s hwithout]
    exact ⟨rfl, fun _ => ⟨rfl, rfl⟩⟩
  · obtain ⟨build, hbuild, hrun⟩ := exists_builder_of_not hwithout
    have hquiet : v.BuilderOnlyBuilds → _ := fun h => h build hbuild hrun height s.mempool.readyTxs s
    rw [proposedTxs_of_builder v height s hbuild hrun, built?_of_builder v height s hbuild hrun]
    dsimp only
    cases (build height s.mempool.readyTxs s).1 with
    | ok txs => exact ⟨rfl, hquiet⟩
    | error reason => exact ⟨rfl, hquiet⟩

/-- The special transaction is not called for, or it is written, or it is too long and left out. -/
theorem specialTx_cases :
    let a := Aggregate.ofVotes height votes []
    (¬ v.settings.specialTxMinHeight ≤ height ∧ v.specialTx height votes s = ((none, []), s)) ∨
    (v.settings.specialTxMinHeight ≤ height ∧ a.special.Fits ∧
      v.specialTx height votes s = ((some (a.special, a.special.toBytes), a.skipped), s)) ∨
    v.settings.specialTxMinHeight ≤ height ∧ ¬ a.special.Fits ∧
      v.specialTx height votes s
        = ((none, a.skipped ++ [.specialTransaction Format.tooLong]), { s with log := s.log ++
            [⟨.error, s!"Unable to serialize special transaction: {Format.tooLong}"⟩] }) := by
  intro a
  by_cases hheight : v.settings.specialTxMinHeight ≤ height
  · have hcarries : v.settings.carriesSpecialTx height := decide_eq_true hheight
    rw [specialTx, if_pos hcarries]
    by_cases hfits : a.special.Fits
    · have hwrite : (Aggregate.ofVotes height votes []).special.write = .ok a.special.toBytes :=
        Format.write_of_fits hfits
      exact .inr (.inl ⟨hheight, hfits, by simp only [hwrite]; rfl⟩)
    · have hwrite : (Aggregate.ofVotes height votes []).special.write = .error Format.tooLong :=
        Format.write_of_not_fits hfits
      exact .inr (.inr ⟨hheight, hfits, by simp only [hwrite]; rfl⟩)
  · refine .inl ⟨hheight, ?_⟩
    rw [specialTx, if_neg (by rwa [Settings.carriesSpecialTx, decide_eq_true_eq])]
    rfl

/-- The selection starts from the opening, with what is reported of the votes. -/
theorem specialTx_spec :
    let done := (v.specialTx height votes s).1
    (∀ items, startSelection done.1 items
      = ⟨v.opening height votes, totalSize (v.opening height votes), items⟩) ∧
    done.2 = v.votesReport height votes ∧
    done.1.map (·.1.bids.length) = v.specialTxBids? height votes := by
  rw [opening, votesReport, specialTxBids?]
  rcases v.specialTx_cases height votes s with
    ⟨hheight, hdone⟩ | ⟨hheight, hfits, hdone⟩ | ⟨hheight, hfits, hdone⟩
  · simp [hdone, hheight, startSelection, totalSize]
  · simp [hdone, hheight, hfits, startSelection]
  · simp [hdone, hheight, hfits, startSelection, totalSize]

theorem afterVotes_spec :
    (v.afterVotes height votes s).mempool = s.mempool ∧
      (v.afterVotes height votes s).events = s.events := by
  rw [afterVotes]
  rcases v.specialTx_cases height votes s with
    ⟨-, hdone⟩ | ⟨-, -, hdone⟩ | ⟨-, -, hdone⟩ <;> exact hdone ▸ ⟨rfl, rfl⟩

/-- If a special transaction is called for only where it can be written, then collecting the votes
leaves no trace. -/
theorem afterVotes_eq (hfits : v.settings.specialTxMinHeight ≤ height →
    (Aggregate.ofVotes height votes []).special.Fits) : v.afterVotes height votes s = s := by
  rw [afterVotes]
  rcases v.specialTx_cases height votes s with
    ⟨-, hdone⟩ | ⟨-, -, hdone⟩ | ⟨hheight, htooLong, -⟩
  · rw [hdone]
  · rw [hdone]
  · exact absurd (hfits hheight) htooLong

/-- What is selected of the candidates, behind the opening. -/
def selected : Selection :=
  let s₀ := v.afterVotes height votes s
  (Selection.mk (v.opening height votes) (totalSize (v.opening height votes))
    (v.votesReport height votes ++ v.builderReport height s₀)).offerAll v.codec v.settings.maxTxBytes
      (v.candidates height s₀)

theorem prepare_eq_selected :
    (v.prepare height votes s).1
      = ⟨(v.selected height votes s).txs, (v.selected height votes s).skipped⟩ := by
  obtain ⟨hstart, hreport, -⟩ := v.specialTx_spec height votes s
  have hprepare : (v.prepare height votes s).1
      = let special := (v.specialTx height votes s).1
        let chosen := (v.proposedTxs height (v.afterVotes height votes s)).1
        let selection := (startSelection special.1 (special.2 ++ chosen.2)).offerAll v.codec
          v.settings.maxTxBytes chosen.1
        ⟨selection.txs, selection.skipped⟩ := rfl
  rw [hprepare, (v.proposedTxs_spec height _).1]
  dsimp only
  rw [hstart, hreport]
  rfl

/-- A prepared proposal is the opening and whatever the candidates put behind it. -/
theorem exists_fates :
    let s₀ := v.afterVotes height votes s
    ∃ fates, Fate.AllDue v.codec v.settings.maxTxBytes (v.opening height votes)
        (v.candidates height s₀) fates ∧
      (v.prepare height votes s).1.txs = v.opening height votes ++ fates.flatMap Fate.placed ∧
      (v.prepare height votes s).1.skipped = v.votesReport height votes ++ v.builderReport height s₀
        ++ fates.flatMap Fate.reported := by
  intro s₀
  rw [prepare_eq_selected, selected]
  have hsized : Selection.Sized ⟨v.opening height votes, totalSize (v.opening height votes),
      v.votesReport height votes ++ v.builderReport height s₀⟩ := rfl
  exact hsized.exists_fates v.codec v.settings.maxTxBytes (v.candidates height s₀)

/-- The byte strings of a proposal that come behind its special transaction, if it carries one. -/
def ordinaryTxs (txs : List Bytes) : List Bytes := txs.drop (v.opening height votes).length

/-- A prepared proposal holds the special transaction, if the settings call for one and it can be
written, and then the encodings of some of the transactions to propose, in order. -/
theorem prepare_spec :
    let txs := (v.prepare height votes s).1.txs
    txs = v.opening height votes ++ v.ordinaryTxs height votes txs ∧
    ∃ chosen, List.Sublist chosen (v.proposedTxs height (v.afterVotes height votes s)).1.1 ∧
      v.codec.Encodes chosen (v.ordinaryTxs height votes txs) := by
  intro txs
  obtain ⟨fates, hfates, htxs, -⟩ := v.exists_fates height votes s
  have hordinary : v.ordinaryTxs height votes txs = fates.flatMap Fate.placed := by
    rw [ordinaryTxs, show txs = _ from htxs, List.drop_left]
  rw [hordinary, (v.proposedTxs_spec height _).1]
  exact ⟨htxs, hfates.exists_chosen⟩

/-- Where the settings call for a special transaction and it can be written, it comes first. -/
theorem prepare_of_fits (hheight : v.settings.specialTxMinHeight ≤ height)
    (hfits : (Aggregate.ofVotes height votes []).special.Fits) :
    ∃ rest chosen, (v.prepare height votes s).1.txs
        = (Aggregate.ofVotes height votes []).special.toBytes :: rest ∧
      List.Sublist chosen (v.proposedTxs height s).1.1 ∧ v.codec.Encodes chosen rest := by
  obtain ⟨htxs, chosen, hsub, hencodes⟩ := v.prepare_spec height votes s
  rw [v.afterVotes_eq height votes s fun _ => hfits] at hsub
  rw [opening, if_pos ⟨hheight, hfits⟩] at htxs
  exact ⟨_, chosen, htxs, hsub, hencodes⟩

end Validator

end BidQuorum
