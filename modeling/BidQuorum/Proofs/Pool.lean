import Mathlib.Data.List.Find
import BidQuorum.Mempool.Pool

set_option autoImplicit false

/-! # Pools seen as lists

A pool is observed only through `Pool.toList`. On this view pushing puts an entry at the end, and
taking finds the first entry with the given signer and hash and cuts it out (`Pool.take?_cases`).

What makes the index a faithful shortcut is `Pool.Indexed`: every number in use is below the next
one, and the index leads from each hash to exactly the numbers of the entries with that hash, with
no queue left behind for a hash that is gone. Both operations keep it. -/

namespace BidQuorum

/-! ## Numbered entries

A tree's list of entries is in ascending order of number, so it is determined by its members. -/

theorem ascending_toList (t : Std.TreeMap Nat Entry) :
    t.toList.Pairwise fun x y => x.1 < y.1 :=
  (Std.TreeMap.ordered_keys_toList (t := t)).imp fun h => Nat.compare_eq_lt.1 h

theorem eq_of_ascending {xs ys : List (Nat × Entry)}
    (hx : xs.Pairwise fun x y => x.1 < y.1) (hy : ys.Pairwise fun x y => x.1 < y.1)
    (h : ∀ x, x ∈ xs ↔ x ∈ ys) : xs = ys := by
  -- The same members, none of them twice, in the same order.
  have nodup : ∀ {zs : List (Nat × Entry)}, (zs.Pairwise fun x y => x.1 < y.1) → zs.Nodup :=
    fun hz => hz.imp fun hlt he => absurd (he ▸ hlt) (Nat.lt_irrefl _)
  have hperm : xs.Perm ys := (List.perm_ext_iff_of_nodup (nodup hx) (nodup hy)).2 h
  exact hperm.eq_of_pairwise (fun x y _ _ hxy hyx => absurd (Nat.lt_trans hxy hyx) (Nat.lt_irrefl _)) hx hy

/-- An entry under a number above all others comes last. -/
theorem toList_insert_of_lt {t : Std.TreeMap Nat Entry} {seq : Nat}
    (h : ∀ x ∈ t.toList, x.1 < seq) (e : Entry) :
    (t.insert seq e).toList = t.toList ++ [(seq, e)] := by
  apply eq_of_ascending (ascending_toList _)
  · rw [List.pairwise_append]
    refine ⟨ascending_toList t, List.pairwise_singleton _ _, fun x hx y hy => ?_⟩
    rw [List.mem_singleton] at hy
    exact hy ▸ h x hx
  · rintro ⟨n, x⟩
    simp only [List.mem_append, List.mem_singleton, Prod.mk.injEq,
      Std.TreeMap.mem_toList_iff_getElem?_eq_some, Std.TreeMap.getElem?_insert,
      Nat.compare_eq_eq]
    constructor
    · split
      · next hn => exact fun he => .inr ⟨hn.symm, (Option.some.inj he).symm⟩
      · exact .inl
    · rintro (hx | ⟨rfl, rfl⟩)
      · have hlt : n < seq := h (n, x) (Std.TreeMap.mem_toList_iff_getElem?_eq_some.2 hx)
        rw [if_neg (Nat.ne_of_gt hlt)]
        exact hx
      · rw [if_pos rfl]

/-- Erasing a number cuts its entry out of the list. -/
theorem toList_erase_of_eq_append {t : Std.TreeMap Nat Entry} {older newer : List (Nat × Entry)}
    {seq : Nat} {e : Entry} (h : t.toList = older ++ (seq, e) :: newer) :
    (t.erase seq).toList = older ++ newer := by
  have hasc := ascending_toList t
  rw [h, List.pairwise_append, List.pairwise_cons] at hasc
  -- What is before `seq` in the list is below it, what is behind is above: `seq` is not met again.
  obtain ⟨holder, ⟨hbelow, hnewer⟩, hacross⟩ := hasc
  apply eq_of_ascending (ascending_toList _)
  · exact List.pairwise_append.2
      ⟨holder, hnewer, fun x hx y hy => hacross x hx y (List.mem_cons_of_mem _ hy)⟩
  · rintro ⟨n, x⟩
    have hmem : (n, x) ∈ t.toList ↔ (n, x) ∈ older ++ newer ∨ (n, x) = (seq, e) := by
      rw [h]; grind
    rw [Std.TreeMap.mem_toList_iff_getElem?_eq_some] at hmem ⊢
    rw [Std.TreeMap.getElem?_erase]
    simp only [Nat.compare_eq_eq]
    split
    · next hn =>
        subst hn
        refine ⟨fun hc => absurd hc (by simp), fun hin => ?_⟩
        rcases List.mem_append.1 hin with hin | hin
        · exact absurd (hacross _ hin _ List.mem_cons_self) (Nat.lt_irrefl _)
        · exact absurd (hbelow _ hin) (Nat.lt_irrefl _)
    · next hn =>
        rw [hmem]
        exact ⟨fun hin => hin.resolve_right fun he => hn (congrArg Prod.fst he).symm, .inl⟩

namespace Pool

/-! ## The invariant -/

/-- The numbers of the entries with a hash, oldest first. -/
def numbers (p : Pool) (hash : TxHash) : List Nat :=
  (p.entries.toList.filter fun x => x.2.hash == hash).map Prod.fst

/-- New numbers are above those in use, and the index agrees with the entries. -/
structure Indexed (p : Pool) : Prop where
  fresh : ∀ x ∈ p.entries.toList, x.1 < p.nextSeq
  index_eq : ∀ hash, p.index[hash]? = if p.numbers hash = [] then none else some (p.numbers hash)

theorem indexed_empty : empty.Indexed where
  fresh := by simp [empty]
  index_eq hash := by simp [empty, numbers]

theorem size_eq_length (p : Pool) : p.size = p.toList.length := by
  rw [toList, List.length_map, Std.TreeMap.length_toList, size]

theorem Indexed.getD_index {p : Pool} (hp : p.Indexed) (hash : TxHash) :
    p.index.getD hash [] = p.numbers hash := by
  rw [Std.TreeMap.getD_eq_getD_getElem?, hp.index_eq]
  split
  · next h => rw [h]; rfl
  · rfl

/-! ## Pushing -/

theorem Indexed.entries_push {p : Pool} (hp : p.Indexed) (e : Entry) :
    (p.push e).entries.toList = p.entries.toList ++ [(p.nextSeq, e)] :=
  toList_insert_of_lt hp.fresh e

theorem Indexed.toList_push {p : Pool} (hp : p.Indexed) (e : Entry) :
    (p.push e).toList = p.toList ++ [e] := by
  rw [toList, hp.entries_push, List.map_append]
  rfl

theorem Indexed.push {p : Pool} (hp : p.Indexed) (e : Entry) : (p.push e).Indexed where
  fresh x hx := by
    rw [hp.entries_push, List.mem_append, List.mem_singleton] at hx
    show x.1 < p.nextSeq + 1
    rcases hx with hx | rfl
    · exact Nat.lt_succ_of_lt (hp.fresh x hx)
    · exact Nat.lt_succ_self _
  index_eq hash := by
    have hnum : (p.push e).numbers hash
        = p.numbers hash ++ if e.hash = hash then [p.nextSeq] else [] := by
      rw [numbers, hp.entries_push, List.filter_append, List.map_append]
      by_cases he : e.hash = hash <;> simp [numbers, he]
    show (p.index.insert e.hash (p.index.getD e.hash [] ++ [p.nextSeq]))[hash]? = _
    rw [Std.TreeMap.getElem?_insert, hp.getD_index, hnum]
    simp only [Std.LawfulEqCmp.compare_eq_iff_eq]
    by_cases he : e.hash = hash
    · subst he
      simp
    · simp [he, hp.index_eq hash]

/-! ## Taking -/

theorem hasSigner_of_mem {p : Pool} {x : Nat × Entry} (hx : x ∈ p.entries.toList)
    (signer : Address) : p.hasSigner signer x.1 = (x.2.signer == signer) := by
  rw [hasSigner, Std.TreeMap.mem_toList_iff_getElem?_eq_some.1 hx]

/-- Among the numbers of a hash, the first whose entry has the signer is the number of the first
entry with the signer and the hash. -/
theorem find?_numbers (p : Pool) (signer : Address) (hash : TxHash) :
    (p.numbers hash).find? (p.hasSigner signer)
      = (p.entries.toList.find? fun x => x.2.isFor signer hash).map Prod.fst := by
  rw [numbers, List.find?_map, List.find?_filter]
  congr 1
  refine List.find?_congr fun x hx => ?_
  rw [Function.comp_apply, hasSigner_of_mem hx signer, Entry.isFor]
  simp only [Bool.decide_and, Bool.decide_eq_true, Bool.and_comm]

/-- The pool without the entry `e` of a number. -/
def cut (p : Pool) (seq : Nat) (e : Entry) : Pool where
  nextSeq := p.nextSeq
  entries := p.entries.erase seq
  index :=
    let rest := (p.numbers e.hash).erase seq
    if rest.isEmpty then p.index.erase e.hash else p.index.insert e.hash rest

section Cut

variable {p : Pool} {older newer : List (Nat × Entry)} {seq : Nat} {e : Entry}

theorem entries_cut (h : p.entries.toList = older ++ (seq, e) :: newer) :
    (p.cut seq e).entries.toList = older ++ newer :=
  toList_erase_of_eq_append h

/-- Cutting an entry out takes its number out of the queue of its hash, and out of no other. -/
theorem numbers_cut (h : p.entries.toList = older ++ (seq, e) :: newer) (hash : TxHash) :
    (p.cut seq e).numbers hash
      = if e.hash = hash then (p.numbers e.hash).erase seq else p.numbers hash := by
  -- No older entry has the number, so erasing it from the queue erases it in its own place.
  have hnotin : seq ∉ (older.filter fun x => x.2.hash == hash).map Prod.fst := by
    intro hin
    obtain ⟨x, hx, hseq⟩ := List.mem_map.1 hin
    have hasc := ascending_toList p.entries
    rw [h, List.pairwise_append] at hasc
    have hlt := hasc.2.2 x (List.mem_filter.1 hx).1 (seq, e) List.mem_cons_self
    exact absurd (hseq ▸ hlt) (Nat.lt_irrefl _)
  split
  · next he =>
      subst he
      rw [numbers, entries_cut h, numbers, h, List.filter_append, List.filter_append,
        List.map_append, List.map_append, List.filter_cons_of_pos (by simp), List.map_cons,
        List.erase_append_right _ hnotin, List.erase_cons_head]
  · next he =>
      rw [numbers, entries_cut h, numbers, h, List.filter_append, List.filter_append,
        List.filter_cons_of_neg (by simpa using he)]

theorem Indexed.cut (hp : p.Indexed) (h : p.entries.toList = older ++ (seq, e) :: newer) :
    (p.cut seq e).Indexed where
  fresh x hx := by
    rw [entries_cut h] at hx
    refine hp.fresh x (h ▸ ?_)
    grind
  index_eq hash := by
    -- Whether the queue of the hash is dropped or shortened, other hashes keep theirs.
    have hindex : ∀ rest : List Nat,
        (if rest.isEmpty then p.index.erase e.hash else p.index.insert e.hash rest)[hash]?
          = if e.hash = hash then (if rest = [] then none else some rest) else p.index[hash]? := by
      intro rest
      by_cases hr : rest = []
      · rw [if_pos (by simp [hr]), Std.TreeMap.getElem?_erase]
        simp [hr, Std.LawfulEqCmp.compare_eq_iff_eq]
      · rw [if_neg (by simp [hr]), Std.TreeMap.getElem?_insert]
        simp [hr, Std.LawfulEqCmp.compare_eq_iff_eq]
    show (if ((p.numbers e.hash).erase seq).isEmpty then _ else _)[hash]? = _
    rw [hindex, hp.index_eq, numbers_cut h]
    split <;> rfl

end Cut

/-- Taking finds the first entry with the signer and the hash, and cuts it out. It fails exactly
where there is none. -/
theorem Indexed.take?_cases {p : Pool} (hp : p.Indexed) (signer : Address) (hash : TxHash) :
    (p.take? signer hash = none ∧ ∀ e ∈ p.toList, ¬ e.isFor signer hash) ∨
    ∃ older e newer rest, p.take? signer hash = some (e, rest) ∧
      p.toList = older ++ e :: newer ∧ (∀ a ∈ older, ¬ a.isFor signer hash) ∧
      e.isFor signer hash ∧ rest.toList = older ++ newer ∧ rest.Indexed := by
  have hfind := find?_numbers p signer hash
  -- The cases are those of a scan; what the index answers follows from `hfind`.
  cases hx : p.entries.toList.find? fun x => x.2.isFor signer hash with
  | none =>
      refine .inl ⟨?_, fun e he => ?_⟩
      · rw [hx] at hfind
        rw [take?, hp.index_eq]
        split
        · rfl
        · next seqs hseqs =>
            have hnum : seqs = p.numbers hash := by
              split at hseqs
              · cases hseqs
              · exact (Option.some.inj hseqs).symm
            rw [hnum, hfind]
            rfl
      · obtain ⟨x, hmem, rfl⟩ := List.mem_map.1 he
        exact List.find?_eq_none.1 hx x hmem
  | some x =>
      obtain ⟨seq, e⟩ := x
      obtain ⟨hfor, older, newer, hsplit, holder⟩ := List.find?_eq_some_iff_append.1 hx
      rw [hx] at hfind
      have hhash : e.hash = hash := by
        rw [Entry.isFor, Bool.and_eq_true] at hfor
        exact beq_iff_eq.1 hfor.2
      have hne : p.numbers hash ≠ [] := fun hnil => by rw [hnil] at hfind; cases hfind
      have hentry : p.entries[seq]? = some e :=
        Std.TreeMap.mem_toList_iff_getElem?_eq_some.1 (List.mem_of_find?_eq_some hx)
      refine .inr ⟨older.map Prod.snd, e, newer.map Prod.snd, p.cut seq e, ?_, ?_, ?_, hfor, ?_,
        hp.cut hsplit⟩
      · subst hhash
        rw [take?, hp.index_eq, if_neg hne]
        simp only [hfind, Option.map_some, hentry, Pool.cut]
      · rw [toList, hsplit, List.map_append, List.map_cons]
      · intro a ha
        obtain ⟨x, hxo, rfl⟩ := List.mem_map.1 ha
        simpa using holder x hxo
      · rw [toList, entries_cut hsplit, List.map_append]

end Pool

end BidQuorum
