import Mathlib.Data.List.Forall2
import BidQuorum.Proposal.Aggregate

set_option autoImplicit false

/-! # What votes come to

The proposer of a height goes over the votes with two accumulators, the bids and the report, and what a
vote carries is whatever a peer made of it. Each vote has its part in what is collected: the bids of its
extension, or an item of the report, or nothing (`ExtendedVote.Brings`). The parts are put together in
the order of the votes, behind what was reported before, and no payload has a part with bids at two
heights (`votes_used_or_reported`). -/

namespace BidQuorum

/-! ## One vote -/

namespace ExtendedVote

/-- The bids that a vote brings to those who collect the votes of `height`: those of its extension,
if it has one for that height. -/
def bidsFor (height : Height) (vote : ExtendedVote) : List Bytes :=
  match VoteExtension.ofBytes vote.extension with
  | .error _ => []
  | .ok extension => if extension.height = height then extension.bids else []

/-- What those who collect the votes of `height` report of a vote that they cannot use. -/
def leftOut? (height : Height) (vote : ExtendedVote) : Option SkippedItem :=
  if vote.extension.isEmpty then none
  else
    match VoteExtension.ofBytes vote.extension with
    | .error e => some (.malformedExtension vote.validator e.message)
    | .ok extension =>
        if extension.height = height then none
        else some (.heightMismatch vote.validator extension.height)

variable {height : Height} {vote : ExtendedVote} {extension : VoteExtension}

theorem bidsFor_of_ofBytes (hread : VoteExtension.ofBytes vote.extension = .ok extension)
    (hheight : extension.height = height) : vote.bidsFor height = extension.bids := by
  simp only [bidsFor, hread, hheight, if_true]

theorem leftOut?_of_ofBytes (hread : VoteExtension.ofBytes vote.extension = .ok extension)
    (hheight : extension.height = height) : vote.leftOut? height = none := by
  simp only [leftOut?, hread, hheight, if_true, ite_self]

/-- Votes that all carry an extension for the height are used, each with all its bids. -/
theorem used_of_read {votes : List ExtendedVote} {extensions : List VoteExtension}
    (hread : votes.map (fun vote => VoteExtension.ofBytes vote.extension) = extensions.map .ok)
    (hheight : ∀ e ∈ extensions, e.height = height) :
    votes.flatMap (bidsFor height) = extensions.flatMap VoteExtension.bids ∧
      votes.filterMap (leftOut? height) = [] := by
  induction votes generalizing extensions with
  | nil =>
      have hnil : extensions = [] := List.map_eq_nil_iff.1 hread.symm
      rw [hnil]
      exact ⟨rfl, rfl⟩
  | cons vote votes ih =>
      cases extensions with
      | nil => cases hread
      | cons extension extensions =>
          obtain ⟨hfirst, hrest⟩ := List.cons_eq_cons.1 hread
          obtain ⟨hfirstHeight, hrestHeight⟩ := List.forall_mem_cons.1 hheight
          obtain ⟨hbids, hleft⟩ := ih hrest hrestHeight
          rw [List.flatMap_cons, List.flatMap_cons, hbids, bidsFor_of_ofBytes hfirst hfirstHeight,
            List.filterMap_cons_none (leftOut?_of_ofBytes hfirst hfirstHeight)]
          exact ⟨rfl, hleft⟩

end ExtendedVote

/-! ## All votes -/

/-- There is no extension in no bytes. -/
theorem VoteExtension.ofBytes_nil : ofBytes [] = .error .endOfInput := rfl

namespace Aggregate

theorem add_eq (a : Aggregate) (vote : ExtendedVote) :
    a.add vote
      = ⟨⟨a.special.height, a.special.bids ++ vote.bidsFor a.special.height⟩,
          a.skipped ++ (vote.leftOut? a.special.height).toList⟩ := by
  unfold add ExtendedVote.bidsFor ExtendedVote.leftOut?
  by_cases hempty : vote.extension.isEmpty
  · rw [List.isEmpty_iff] at hempty
    simp [hempty, VoteExtension.ofBytes_nil]
  · simp only [hempty]
    cases VoteExtension.ofBytes vote.extension with
    | error e => simp
    | ok extension =>
        by_cases hheight : extension.height = a.special.height <;> simp [hheight]

/-- Collecting votes is concatenation: of what they bring, and of what is reported of them. -/
theorem ofVotes_eq (height : Height) (votes : List ExtendedVote) (skipped : List SkippedItem) :
    ofVotes height votes skipped
      = ⟨⟨height.previous, votes.flatMap (ExtendedVote.bidsFor height.previous)⟩,
          skipped ++ votes.filterMap (ExtendedVote.leftOut? height.previous)⟩ := by
  have hfoldl : ∀ a : Aggregate, votes.foldl add a
      = ⟨⟨a.special.height, a.special.bids ++ votes.flatMap (·.bidsFor a.special.height)⟩,
          a.skipped ++ votes.filterMap (·.leftOut? a.special.height)⟩ := by
    induction votes with
    | nil => intro a; simp
    | cons vote votes ih =>
        intro a
        rw [List.foldl_cons, ih, add_eq]
        cases hleft : vote.leftOut? a.special.height <;> simp [hleft]
  rw [ofVotes, hfoldl]
  rfl

/-- Of votes that all carry an extension for the height before, nothing is left out. -/
theorem ofVotes_of_read {height : Height} {votes : List ExtendedVote}
    {extensions : List VoteExtension}
    (hread : votes.map (fun vote => VoteExtension.ofBytes vote.extension) = extensions.map .ok)
    (hheight : ∀ e ∈ extensions, e.height = height.previous) :
    ofVotes height votes [] = ⟨⟨height.previous, extensions.flatMap VoteExtension.bids⟩, []⟩ := by
  obtain ⟨hbids, hleft⟩ := ExtendedVote.used_of_read hread hheight
  rw [ofVotes_eq, hbids, hleft]
  rfl

end Aggregate

/-! ## Parts of votes -/

/-- The part of a vote in what is collected of the extensions made at `height`: the bids that it brings,
and what is reported of it. -/
inductive ExtendedVote.Brings (height : Height) (vote : ExtendedVote) :
    List Bytes → List SkippedItem → Prop
  | nothing (empty : vote.extension = []) : Brings height vote [] []
  | used {extension : VoteExtension} (nonempty : vote.extension ≠ [])
      (read : VoteExtension.ofBytes vote.extension = .ok extension)
      (current : extension.height = height) : Brings height vote extension.bids []
  | malformed {e : DecodeError} (nonempty : vote.extension ≠ [])
      (refused : VoteExtension.ofBytes vote.extension = .error e) :
      Brings height vote [] [.malformedExtension vote.validator e.message]
  | mismatched {extension : VoteExtension} (nonempty : vote.extension ≠ [])
      (read : VoteExtension.ofBytes vote.extension = .ok extension)
      (other : extension.height ≠ height) :
      Brings height vote [] [.heightMismatch vote.validator extension.height]

theorem ExtendedVote.brings (height : Height) (vote : ExtendedVote) :
    vote.Brings height (vote.bidsFor height) (vote.leftOut? height).toList := by
  unfold bidsFor leftOut?
  by_cases hempty : vote.extension = []
  · rw [hempty]
    exact .nothing hempty
  · rw [if_neg (by simpa using hempty)]
    cases hread : VoteExtension.ofBytes vote.extension with
    | error e => exact .malformed hempty hread
    | ok extension =>
        by_cases hheight : extension.height = height
        · simp only [hheight, if_true]
          exact .used hempty hread hheight
        · simp only [hheight, if_false]
          exact .mismatched hempty hread hheight

/-- What is collected is put together of the parts of the votes. -/
theorem Aggregate.exists_parts (height : Height) (votes : List ExtendedVote)
    (skipped : List SkippedItem) :
    ∃ parts : List (List Bytes × List SkippedItem),
      List.Forall₂ (fun vote part => vote.Brings height.previous part.1 part.2) votes parts ∧
      (ofVotes height votes skipped).special.bids = parts.flatMap Prod.fst ∧
      (ofVotes height votes skipped).skipped = skipped ++ parts.flatMap Prod.snd := by
  refine ⟨votes.map fun vote => (vote.bidsFor height.previous,
    (vote.leftOut? height.previous).toList), ?_, ?_, ?_⟩
  · rw [List.forall₂_map_right_iff, List.forall₂_same]
    exact fun vote _ => vote.brings height.previous
  · rw [ofVotes_eq, List.flatMap_map]
  · rw [ofVotes_eq, List.flatMap_map, List.filterMap_eq_flatMap_toList]

/-- Votes may be collected in two lots, one after the other with the same report. -/
theorem Aggregate.ofVotes_append (height : Height) (votes more : List ExtendedVote)
    (skipped : List SkippedItem) :
    let a := ofVotes height votes skipped
    let b := ofVotes height more a.skipped
    let both := ofVotes height (votes ++ more) skipped
    both.special.bids = a.special.bids ++ b.special.bids ∧ both.skipped = b.skipped := by
  simp only [ofVotes_eq, List.flatMap_append, List.filterMap_append, List.append_assoc, and_self]

/-! ## Heights -/

theorem Height.toNat_previous (h : Height) : h.previous.number.toNat = h.number.toNat - 1 := by
  unfold previous prev?
  by_cases hzero : h.number = 0
  · rw [if_pos hzero, hzero]
    rfl
  · rw [if_neg hzero, Option.getD_some]
    have hone : 1 ≤ h.number := by
      rw [UInt64.le_iff_toNat_le]
      exact Nat.pos_of_ne_zero fun h0 => hzero (UInt64.toNat_inj.1 h0)
    exact UInt64.toNat_sub_of_le _ _ hone

/-- Above zero, the height below determines the height. -/
theorem Height.eq_of_previous_eq {a b : Height} (ha : a ≠ .zero) (hb : b ≠ .zero)
    (h : a.previous = b.previous) : a = b := by
  have hpos : ∀ h : Height, h ≠ .zero → h.number.toNat ≠ 0 := by
    rintro ⟨n⟩ hne h0
    exact hne (congrArg Height.mk (UInt64.toNat_inj.1 h0))
  have hnumbers : a.number.toNat - 1 = b.number.toNat - 1 := by
    rw [← toNat_previous, ← toNat_previous, h]
  have hnumber : a.number = b.number := by
    have := hpos a ha
    have := hpos b hb
    exact UInt64.toNat_inj.1 (by omega)
  exact congrArg Height.mk hnumber

/-! ## One payload at several heights -/

/-- A payload counts at a height: there are votes of which other bids are collected with a vote that
carries it among them than without this vote. -/
def Aggregate.Counts (payload : Bytes) (height : Height) : Prop :=
  ∃ before vote after skipped, vote.extension = payload ∧
    (ofVotes height (before ++ vote :: after) skipped).special.bids
      ≠ (ofVotes height (before ++ after) skipped).special.bids

/-- A payload counts only behind the height that it was made at. -/
theorem Aggregate.Counts.exists_extension {payload : Bytes} {height : Height}
    (h : Counts payload height) :
    ∃ extension, VoteExtension.ofBytes payload = .ok extension ∧
      extension.height = height.previous := by
  obtain ⟨before, vote, after, skipped, rfl, hne⟩ := h
  rw [ofVotes_eq, ofVotes_eq] at hne
  cases hread : VoteExtension.ofBytes vote.extension with
  | error e =>
      refine absurd ?_ hne
      simp [ExtendedVote.bidsFor, hread]
  | ok extension =>
      refine ⟨extension, rfl, by_contra fun hheight => hne ?_⟩
      simp [ExtendedVote.bidsFor, hread, hheight]

/-- **Each vote is used or reported.** Of the votes collected for a height, those with an extension that
can be read and is for the height before bring their bids, in the order of the votes; an extension that
cannot be read, or is for another height, is reported with the validator and the reason; no extension
leaves no trace. The report comes behind what was reported already. So votes may be collected in two
lots. No payload counts at two heights, other than height zero, which shares the one before it with
height one. -/
theorem votes_used_or_reported (height : Height) (votes : List ExtendedVote)
    (skipped : List SkippedItem) :
    let a := Aggregate.ofVotes height votes skipped
    (height.previous.number.toNat = height.number.toNat - 1 ∧ a.special.height = height.previous ∧
      ∃ parts : List (List Bytes × List SkippedItem),
        List.Forall₂ (fun vote part => vote.Brings height.previous part.1 part.2) votes parts ∧
        a.special.bids = parts.flatMap Prod.fst ∧
        a.skipped = skipped ++ parts.flatMap Prod.snd) ∧
    (∀ more : List ExtendedVote,
      let b := Aggregate.ofVotes height more a.skipped
      let both := Aggregate.ofVotes height (votes ++ more) skipped
      both.special.bids = a.special.bids ++ b.special.bids ∧ both.skipped = b.skipped) ∧
    ∀ (payload : Bytes) (height' : Height), height ≠ .zero → height' ≠ .zero →
      Aggregate.Counts payload height → Aggregate.Counts payload height' → height = height' := by
  intro a
  refine ⟨⟨height.toNat_previous, ?_, Aggregate.exists_parts height votes skipped⟩,
    fun more => Aggregate.ofVotes_append height votes more skipped, ?_⟩
  · show (Aggregate.ofVotes height votes skipped).special.height = _
    rw [Aggregate.ofVotes_eq]
  · intro payload height' hne hne' hcounts hcounts'
    obtain ⟨extension, hread, hheight⟩ := hcounts.exists_extension
    obtain ⟨other, hother, hheight'⟩ := hcounts'.exists_extension
    -- The payload is read as one extension, which has one height.
    obtain rfl := Except.ok.inj (hread.symm.trans hother)
    exact Height.eq_of_previous_eq hne hne' (hheight.symm.trans hheight')

/-- An extension with a bid, made at height two, counts at height three and at no other above zero. -/
theorem counts_at_height_three :
    let payload := (VoteExtension.mk ⟨2⟩ [[7]] .empty).toBytes
    Aggregate.Counts payload ⟨3⟩ ∧
      ∀ height : Height, height ≠ .zero → Aggregate.Counts payload height → height = ⟨3⟩ := by
  intro payload
  have hcounts : Aggregate.Counts payload ⟨3⟩ :=
    ⟨[], ⟨⟨List.replicate 32 0, List.length_replicate⟩, payload⟩, [], [], rfl, by decide +kernel⟩
  refine ⟨hcounts, fun height hne h => ?_⟩
  exact (votes_used_or_reported height [] []).2.2 payload ⟨3⟩ hne (by decide) h hcounts

end BidQuorum
