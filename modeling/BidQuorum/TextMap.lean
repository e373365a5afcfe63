import BidQuorum.Text.Utf8

set_option autoImplicit false

/-! # Maps with texts as keys

What subscribers add to a vote extension is kept under their keys, and two validators must write
the same map as the same bytes. So a map is its list of entries in ascending order of the keys'
UTF-8 bytes, each key once. The order is part of the type, and hence two maps with the same
values under the same keys are equal (`TextMap.ext_find?`). -/

namespace BidQuorum

/-- A finite map from texts, with its entries in ascending order of key. -/
structure TextMap (α : Type) where
  entries : List (String × α)
  ascending : entries.Pairwise fun x y => Utf8.bytes x.1 < Utf8.bytes y.1

namespace TextMap

variable {α : Type}

def empty : TextMap α := ⟨[], .nil⟩

instance : EmptyCollection (TextMap α) := ⟨empty⟩

instance : Inhabited (TextMap α) := ⟨empty⟩

instance [DecidableEq α] : DecidableEq (TextMap α) := fun m n =>
  decidable_of_iff (m.entries = n.entries) ⟨fun h => by cases m; cases n; cases h; rfl, congrArg _⟩

/-! ## Insertion -/

/-- The entries with `value` under `key`, replacing what was there. -/
def insertEntry (key : String) (value : α) : List (String × α) → List (String × α)
  | [] => [(key, value)]
  | (k, v) :: rest =>
      if key = k then (key, value) :: rest
      else if Utf8.bytes key < Utf8.bytes k then (key, value) :: (k, v) :: rest
      else (k, v) :: insertEntry key value rest

theorem mem_insertEntry {key : String} {value : α} {entries : List (String × α)}
    {x : String × α} (h : x ∈ insertEntry key value entries) : x = (key, value) ∨ x ∈ entries := by
  induction entries with
  | nil => simpa [insertEntry] using h
  | cons e rest ih =>
      obtain ⟨k, v⟩ := e
      unfold insertEntry at h
      split at h
      · simp only [List.mem_cons] at h ⊢
        rcases h with h | h
        · exact .inl h
        · exact .inr (.inr h)
      · split at h
        · simpa using h
        · simp only [List.mem_cons] at h ⊢
          rcases h with h | h
          · exact .inr (.inl h)
          · rcases ih h with h | h
            · exact .inl h
            · exact .inr (.inr h)

theorem pairwise_insertEntry {key : String} {value : α} {entries : List (String × α)}
    (h : entries.Pairwise fun x y => Utf8.bytes x.1 < Utf8.bytes y.1) :
    (insertEntry key value entries).Pairwise fun x y => Utf8.bytes x.1 < Utf8.bytes y.1 := by
  induction entries with
  | nil => simp [insertEntry]
  | cons e rest ih =>
      obtain ⟨k, v⟩ := e
      rw [List.pairwise_cons] at h
      unfold insertEntry
      split
      · next hk =>
          subst hk
          exact List.pairwise_cons.2 ⟨h.1, h.2⟩
      · next hk =>
          split
          · next hlt =>
              refine List.pairwise_cons.2 ⟨fun y hy => ?_, List.pairwise_cons.2 h⟩
              rcases List.mem_cons.1 hy with rfl | hy
              · exact hlt
              · exact List.lt_trans hlt (h.1 y hy)
          · next hlt =>
              refine List.pairwise_cons.2 ⟨fun y hy => ?_, ih h.2⟩
              rcases mem_insertEntry hy with rfl | hy
              · have hne : Utf8.bytes k ≠ Utf8.bytes key := fun he => hk (Utf8.bytes_inj.1 he).symm
                exact Std.lt_of_le_of_ne (Std.not_lt.1 hlt) hne
              · exact h.1 y hy

/-- The map with `value` under `key`, replacing what was there. -/
def insert (m : TextMap α) (key : String) (value : α) : TextMap α :=
  ⟨insertEntry key value m.entries, pairwise_insertEntry m.ascending⟩

/-- The map of a list of pairs; of equal keys the last one counts. -/
def ofList (pairs : List (String × α)) : TextMap α :=
  pairs.foldl (fun m x => m.insert x.1 x.2) empty

/-! ## Looking up -/

/-- The value under a key in a list of pairs, the first one if the key repeats. -/
def lookup? (key : String) : List (String × α) → Option α
  | [] => none
  | (k, v) :: rest => if key = k then some v else lookup? key rest

/-- The value under `key`. -/
def find? (m : TextMap α) (key : String) : Option α := lookup? key m.entries

/-- The keys, in ascending order. -/
def keys (m : TextMap α) : List String := m.entries.map Prod.fst

theorem lookup?_insertEntry (key other : String) (value : α) (entries : List (String × α)) :
    lookup? other (insertEntry key value entries)
      = if other = key then some value else lookup? other entries := by
  induction entries with
  | nil => simp [insertEntry, lookup?]
  | cons e rest ih =>
      obtain ⟨k, v⟩ := e
      unfold insertEntry
      split
      · next hk => subst hk; by_cases ho : other = key <;> simp [lookup?, ho]
      · next hk =>
          split
          · simp [lookup?]
          · by_cases hok : other = k
            · subst hok; simp [lookup?, Ne.symm hk]
            · simp [lookup?, hok, ih]

/-- Insertion changes what is found under one key only. -/
theorem find?_insert (m : TextMap α) (key other : String) (value : α) :
    (m.insert key value).find? other = if other = key then some value else m.find? other :=
  lookup?_insertEntry key other value m.entries

theorem find?_empty (key : String) : (empty : TextMap α).find? key = none := rfl

theorem mem_of_lookup? {key : String} {value : α} {entries : List (String × α)}
    (h : lookup? key entries = some value) : (key, value) ∈ entries := by
  induction entries with
  | nil => cases h
  | cons e rest ih =>
      obtain ⟨k, v⟩ := e
      unfold lookup? at h
      split at h
      · next hk => cases h; subst hk; simp
      · exact List.mem_cons_of_mem _ (ih h)

theorem find?_eq_some_iff (m : TextMap α) {key : String} {value : α} :
    m.find? key = some value ↔ (key, value) ∈ m.entries := by
  refine ⟨mem_of_lookup?, fun h => ?_⟩
  have hp := m.ascending
  unfold find?
  revert h hp
  induction m.entries with
  | nil => intro h; cases h
  | cons e rest ih =>
      obtain ⟨k, v⟩ := e
      intro h hp
      rw [List.pairwise_cons] at hp
      unfold lookup?
      rcases List.mem_cons.1 h with he | hr
      · cases he; simp
      · have hne : key ≠ k := fun he => List.lt_irrefl (Utf8.bytes k) (he ▸ hp.1 _ hr)
        simp only [hne, if_false]
        exact ih hr hp.2

/-! ## Extensionality -/

theorem eq_of_pairwise_of_mem_iff {xs ys : List (String × α)}
    (hx : xs.Pairwise fun x y => Utf8.bytes x.1 < Utf8.bytes y.1)
    (hy : ys.Pairwise fun x y => Utf8.bytes x.1 < Utf8.bytes y.1)
    (h : ∀ e, e ∈ xs ↔ e ∈ ys) : xs = ys := by
  induction xs generalizing ys with
  | nil =>
      cases ys with
      | nil => rfl
      | cons y ys => exact absurd ((h y).2 (by simp)) (by simp)
  | cons x xs ih =>
      cases ys with
      | nil => exact absurd ((h x).1 (by simp)) (by simp)
      | cons y ys =>
          rw [List.pairwise_cons] at hx hy
          have hxy : x = y := by
            rcases List.mem_cons.1 ((h x).1 (by simp)) with e | hxs
            · exact e
            · rcases List.mem_cons.1 ((h y).2 (by simp)) with e | hys
              · exact e.symm
              · exact absurd (List.lt_trans (hx.1 y hys) (hy.1 x hxs)) (List.lt_irrefl _)
          subst hxy
          have hrest : ∀ e, e ∈ xs ↔ e ∈ ys := by
            intro e
            constructor
            · intro he
              rcases List.mem_cons.1 ((h e).1 (List.mem_cons_of_mem _ he)) with rfl | he'
              · exact absurd (hx.1 e he) (List.lt_irrefl _)
              · exact he'
            · intro he
              rcases List.mem_cons.1 ((h e).2 (List.mem_cons_of_mem _ he)) with rfl | he'
              · exact absurd (hy.1 e he) (List.lt_irrefl _)
              · exact he'
          rw [ih hx.2 hy.2 hrest]

/-- Maps that hold the same values under the same keys are equal. -/
theorem ext_find? {m n : TextMap α} (h : ∀ key, m.find? key = n.find? key) : m = n := by
  have he : m.entries = n.entries := by
    refine eq_of_pairwise_of_mem_iff m.ascending n.ascending fun e => ?_
    rw [← find?_eq_some_iff m, ← find?_eq_some_iff n, h]
  cases m; cases n; cases he; rfl

end TextMap

end BidQuorum
