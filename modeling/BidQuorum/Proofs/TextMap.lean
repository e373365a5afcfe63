import Mathlib.Data.List.Induction
import Mathlib.Data.List.Nodup
import Mathlib.Data.List.Perm.Subperm
import BidQuorum.TextMap

set_option autoImplicit false

/-! # Maps made of lists

A list of pairs says more than the map that is made of it: in what order the pairs come, and which
values were replaced. What the map keeps of it is the last value under each key (`find?_ofList`), and
its entries are the list itself exactly if that is in order already (`entries_ofList_eq_iff`). -/

namespace BidQuorum.TextMap

variable {α β : Type}

/-! ## Keys and values -/

theorem find?_eq_none_iff (m : TextMap α) {key : String} : m.find? key = none ↔ key ∉ m.keys := by
  constructor
  · intro h hmem
    obtain ⟨x, hx, rfl⟩ := List.mem_map.1 hmem
    rw [(find?_eq_some_iff m).2 hx] at h
    cases h
  · intro h
    rcases hfind : m.find? key with _ | value
    · rfl
    · exact absurd (List.mem_map_of_mem ((find?_eq_some_iff m).1 hfind)) h

theorem mem_keys_of_find? {m : TextMap α} {key : String} {value : α}
    (h : m.find? key = some value) : key ∈ m.keys :=
  List.mem_map_of_mem ((find?_eq_some_iff m).1 h)

/-- No key repeats. -/
theorem nodup_keys (m : TextMap α) : m.keys.Nodup := by
  refine List.pairwise_map.2 (m.ascending.imp fun {x y} hlt heq => ?_)
  rw [heq] at hlt
  exact List.lt_irrefl _ hlt

/-- The map with every value replaced by what `f` makes of it, under the same key. -/
def map (m : TextMap α) (f : String → α → β) : TextMap β :=
  ⟨m.entries.map fun x => (x.1, f x.1 x.2), List.pairwise_map.2 m.ascending⟩

theorem find?_map (m : TextMap α) (f : String → α → β) (key : String) :
    (m.map f).find? key = (m.find? key).map (f key) := by
  show lookup? key (m.entries.map fun x => (x.1, f x.1 x.2)) = (lookup? key m.entries).map (f key)
  induction m.entries with
  | nil => rfl
  | cons x rest ih =>
      obtain ⟨k, v⟩ := x
      by_cases hkey : key = k
      · simp [lookup?, hkey]
      · simp [lookup?, hkey, ih]

/-! ## Pairs in order -/

theorem insertEntry_of_forall_lt {key : String} {entries : List (String × α)}
    (h : ∀ x ∈ entries, Utf8.bytes x.1 < Utf8.bytes key) (value : α) :
    insertEntry key value entries = entries ++ [(key, value)] := by
  induction entries with
  | nil => rfl
  | cons e rest ih =>
      obtain ⟨k, v⟩ := e
      have hlt : Utf8.bytes k < Utf8.bytes key := h (k, v) List.mem_cons_self
      have hne : key ≠ k := fun he => List.lt_irrefl _ (he ▸ hlt)
      rw [insertEntry, if_neg hne, if_neg (List.lt_asymm hlt),
        ih fun x hx => h x (List.mem_cons_of_mem _ hx), List.cons_append]

theorem entries_foldl_insert (m : TextMap α) (pairs : List (String × α))
    (h : (m.entries ++ pairs).Pairwise fun x y => Utf8.bytes x.1 < Utf8.bytes y.1) :
    (pairs.foldl (fun m x => m.insert x.1 x.2) m).entries = m.entries ++ pairs := by
  -- Every pair is above the entries so far, so it is inserted behind them.
  induction pairs generalizing m with
  | nil => simp
  | cons x rest ih =>
      have hlast : (m.insert x.1 x.2).entries = m.entries ++ [x] :=
        insertEntry_of_forall_lt
          (fun y hy => (List.pairwise_append.1 h).2.2 y hy x List.mem_cons_self) x.2
      rw [List.foldl_cons, ih _ (by rw [hlast, List.append_assoc]; exact h), hlast,
        List.append_assoc]
      rfl

theorem eq_of_entries_eq {m n : TextMap α} (h : m.entries = n.entries) : m = n := by
  cases m; cases n; cases h; rfl

/-- The entries of the map are the pairs exactly if these are in order, each key once. -/
theorem entries_ofList_eq_iff {pairs : List (String × α)} :
    (ofList pairs).entries = pairs ↔
      pairs.Pairwise fun x y => Utf8.bytes x.1 < Utf8.bytes y.1 := by
  constructor
  · intro h
    rw [← h]
    exact (ofList pairs).ascending
  · exact entries_foldl_insert empty pairs

/-- A map is the map of its entries. -/
theorem ofList_entries (m : TextMap α) : ofList m.entries = m :=
  eq_of_entries_eq (entries_ofList_eq_iff.2 m.ascending)

/-! ## Pairs in any order -/

/-- The map with pairs inserted one after another. -/
def insertAll (m : TextMap α) (pairs : List (String × α)) : TextMap α :=
  pairs.foldl (fun m x => m.insert x.1 x.2) m

theorem insertAll_append (m : TextMap α) (first later : List (String × α)) :
    m.insertAll (first ++ later) = (m.insertAll first).insertAll later :=
  List.foldl_append

/-- What is found under a key is the last value that the list has for it. -/
theorem find?_ofList (pairs : List (String × α)) (key : String) :
    (ofList pairs).find? key = lookup? key pairs.reverse := by
  -- The induction is from the end of the list, as the pair there is inserted last.
  induction pairs using List.reverseRecOn with
  | nil => rfl
  | append_singleton pairs x ih =>
      have hinsert : ofList (pairs ++ [x]) = (ofList pairs).insert x.1 x.2 := by
        rw [ofList, List.foldl_append]
        rfl
      rw [hinsert, find?_insert, ih, List.reverse_append]
      rfl

theorem lookup?_eq_head? (key : String) (pairs : List (String × α)) :
    lookup? key pairs = (pairs.filterMap fun x => if x.1 = key then some x.2 else none).head? := by
  induction pairs with
  | nil => rfl
  | cons x rest ih =>
      obtain ⟨k, v⟩ := x
      by_cases hkey : key = k
      · simp [lookup?, hkey]
      · simp [lookup?, hkey, Ne.symm hkey, ih]

/-- What is found under a key is the last of the values that the list has under it. -/
theorem find?_ofList_eq_getLast? (pairs : List (String × α)) (key : String) :
    (ofList pairs).find? key
      = (pairs.filterMap fun x => if x.1 = key then some x.2 else none).getLast? := by
  rw [find?_ofList, lookup?_eq_head?, List.filterMap_reverse, List.head?_reverse]

theorem mem_of_mem_entries_ofList {pairs : List (String × α)} {x : String × α}
    (hx : x ∈ (ofList pairs).entries) : x ∈ pairs := by
  have hfind : (ofList pairs).find? x.1 = some x.2 := (find?_eq_some_iff _).2 hx
  rw [find?_ofList] at hfind
  exact List.mem_reverse.1 (mem_of_lookup? hfind)

theorem length_entries_ofList_le (pairs : List (String × α)) :
    (ofList pairs).entries.length ≤ pairs.length := by
  have hnodup : (ofList pairs).entries.Nodup := (ofList pairs).nodup_keys.of_map
  exact (List.subperm_of_subset hnodup fun _ hx => mem_of_mem_entries_ofList hx).length_le

/-- Where no key repeats, what is found under a key is what the list pairs it with. -/
theorem lookup?_eq_some_iff {pairs : List (String × α)} (hkeys : (pairs.map Prod.fst).Nodup)
    {key : String} {value : α} : lookup? key pairs = some value ↔ (key, value) ∈ pairs := by
  refine ⟨mem_of_lookup?, fun h => ?_⟩
  induction pairs with
  | nil => cases h
  | cons x rest ih =>
      obtain ⟨k, v⟩ := x
      obtain ⟨hfresh, hrest⟩ := List.nodup_cons.1 hkeys
      unfold lookup?
      rcases List.mem_cons.1 h with heq | hmem
      · cases heq
        rw [if_pos rfl]
      · have hkey : key ∈ rest.map Prod.fst := List.mem_map_of_mem (f := Prod.fst) hmem
        rw [if_neg fun (heq : key = k) => hfresh (heq ▸ hkey)]
        exact ih hrest hmem

/-- Pairs with different keys may be inserted in any order. -/
theorem ofList_eq_of_perm {pairs pairs' : List (String × α)} (hperm : pairs.Perm pairs')
    (hkeys : (pairs.map Prod.fst).Nodup) : ofList pairs = ofList pairs' := by
  have hkeys' : (pairs'.map Prod.fst).Nodup := (hperm.map Prod.fst).nodup_iff.1 hkeys
  refine ext_find? fun key => Option.ext fun value => ?_
  rw [find?_ofList, find?_ofList,
    lookup?_eq_some_iff (by rwa [List.map_reverse, List.nodup_reverse]),
    lookup?_eq_some_iff (by rwa [List.map_reverse, List.nodup_reverse]),
    List.mem_reverse, List.mem_reverse, hperm.mem_iff]

end BidQuorum.TextMap
