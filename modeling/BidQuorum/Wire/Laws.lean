import Mathlib.Algebra.Group.Nat.Defs
import BidQuorum.Wire.Sequence

set_option autoImplicit false

/-! # Laws of the wire formats

Three laws are followed from the single values up through every compound. `ReadsBack`: reading an
encoding gives the value back and leaves what follows it alone. `Canonical`: whatever is read is the
encoding of the value, so that no bytes have two readings and no value two encodings. `Breaks`: an
encoding that breaks off is met with the end of the input, and with no other error.

Each law holds of the values that fit their format: numbers below the bound of their width, and
lists, texts and maps shorter than `2³²`. Maps alone are not canonical, since their entries may come
in any order. -/

namespace BidQuorum

/-! ## Numbers -/

/-- Reading what was written gives the number back, modulo what the width can hold. -/
theorem ofLittleEndian_littleEndian (width n : Nat) :
    ofLittleEndian (littleEndian width n) = n % 256 ^ width := by
  induction width generalizing n with
  | zero => simp [littleEndian, ofLittleEndian, Nat.mod_one]
  | succ width ih =>
      have hb : (UInt8.ofNat n).toNat = n % 256 := by simp
      rw [littleEndian, ofLittleEndian, ih, hb, Nat.pow_succ, Nat.mul_comm (256 ^ width),
        Nat.mod_mul]

theorem ofLittleEndian_lt (bytes : Bytes) : ofLittleEndian bytes < 256 ^ bytes.length := by
  induction bytes with
  | nil => simp [ofLittleEndian]
  | cons b rest ih =>
      have hb := b.toNat_lt
      simp only [ofLittleEndian, List.length_cons, Nat.pow_succ]
      omega

theorem littleEndian_ofLittleEndian (bytes : Bytes) :
    littleEndian bytes.length (ofLittleEndian bytes) = bytes := by
  induction bytes with
  | nil => rfl
  | cons b rest ih =>
      have hb := b.toNat_lt
      have hdiv : (b.toNat + 256 * ofLittleEndian rest) / 256 = ofLittleEndian rest := by omega
      have hmod : UInt8.ofNat (b.toNat + 256 * ofLittleEndian rest) = b := by
        apply UInt8.toNat_inj.1
        have hv : (UInt8.ofNat (b.toNat + 256 * ofLittleEndian rest)).toNat
            = (b.toNat + 256 * ofLittleEndian rest) % 256 := by simp
        omega
      simp [littleEndian, ofLittleEndian, hdiv, hmod, ih]

namespace Format

variable {α β : Type}

/-- Reading the encoding of a fitting value gives the value back and leaves what follows. -/
def ReadsBack (f : Format α) (Fits : α → Prop) : Prop :=
  ∀ a, Fits a → ∀ rest, f.read (f.encode a ++ rest) = .ok (a, rest)

/-- Whatever is read was the encoding of the value, which fits. -/
def Canonical (f : Format α) (Fits : α → Prop) : Prop :=
  ∀ bytes a rest, f.read bytes = .ok (a, rest) → bytes = f.encode a ++ rest ∧ Fits a

/-- An encoding of a fitting value that breaks off is met with the end of the input. -/
def Breaks (f : Format α) (Fits : α → Prop) : Prop :=
  ∀ a, Fits a → ∀ front back, f.encode a = front ++ back → back ≠ [] →
    f.read front = .error .endOfInput

/-! ## Octets and bytes -/

theorem readsBack_octets (n : Nat) : (octets n).ReadsBack fun _ => True := by
  rintro ⟨bytes, rfl⟩ - rest
  simp [octets]

theorem canonical_octets (n : Nat) : (octets n).Canonical fun _ => True := by
  intro bytes a rest h
  simp only [octets] at h ⊢
  split at h
  · cases h; simp
  · cases h

theorem breaks_octets (n : Nat) : (octets n).Breaks fun _ => True := by
  rintro ⟨bytes, rfl⟩ - front back h hb
  simp only [octets] at h ⊢
  have : front.length < bytes.length := by
    rw [h, List.length_append]
    have := List.length_pos_iff.2 hb
    omega
  rw [dif_neg]
  simp; omega

theorem readsBack_byte : byte.ReadsBack fun _ => True := by
  intro a _ rest; rfl

theorem canonical_byte : byte.Canonical fun _ => True := by
  intro bytes a rest h
  cases bytes with
  | nil => cases h
  | cons b bs => cases h; simp [byte]

theorem breaks_byte : byte.Breaks fun _ => True := by
  intro a _ front back h hb
  cases front with
  | nil => rfl
  | cons x xs =>
      simp [byte] at h
      simp_all

/-! ## Map -/

theorem ReadsBack.map {f : Format α} {Fits : α → Prop} (hf : f.ReadsBack Fits)
    {forth : α → β} {back : β → α} {Fits' : β → Prop}
    (h : ∀ b, Fits' b → Fits (back b) ∧ forth (back b) = b) :
    (f.map forth back).ReadsBack Fits' := by
  intro b hb rest
  simp only [Format.map, hf _ (h b hb).1, (h b hb).2]

theorem Canonical.map {f : Format α} {Fits : α → Prop} (hf : f.Canonical Fits)
    {forth : α → β} {back : β → α} {Fits' : β → Prop}
    (h : ∀ a, Fits a → back (forth a) = a ∧ Fits' (forth a)) :
    (f.map forth back).Canonical Fits' := by
  intro bytes b rest hr
  simp only [Format.map] at hr ⊢
  split at hr
  · cases hr
  · next a rest' ha =>
      cases hr
      obtain ⟨h1, h2⟩ := hf _ _ _ ha
      rw [(h a h2).1]
      exact ⟨h1, (h a h2).2⟩

theorem Breaks.map {f : Format α} {Fits : α → Prop} (hf : f.Breaks Fits)
    {forth : α → β} {back : β → α} {Fits' : β → Prop}
    (h : ∀ b, Fits' b → Fits (back b)) : (f.map forth back).Breaks Fits' := by
  intro b hb front rest he hne
  simp only [Format.map, hf _ (h b hb) front rest he hne]

/-! ## Pair -/

theorem ReadsBack.pair {f : Format α} {g : Format β} {F : α → Prop} {G : β → Prop}
    (hf : f.ReadsBack F) (hg : g.ReadsBack G) :
    (f.pair g).ReadsBack fun x => F x.1 ∧ G x.2 := by
  rintro ⟨a, b⟩ ⟨ha, hb⟩ rest
  simp only [Format.pair, List.append_assoc, hf a ha, hg b hb]

theorem Canonical.pair {f : Format α} {g : Format β} {F : α → Prop} {G : β → Prop}
    (hf : f.Canonical F) (hg : g.Canonical G) :
    (f.pair g).Canonical fun x => F x.1 ∧ G x.2 := by
  intro bytes x rest h
  simp only [Format.pair] at h ⊢
  split at h
  · cases h
  · next a r1 h1 =>
      split at h
      · cases h
      · next b r2 h2 =>
          cases h
          obtain ⟨e1, f1⟩ := hf _ _ _ h1
          obtain ⟨e2, f2⟩ := hg _ _ _ h2
          exact ⟨by rw [e1, e2, List.append_assoc], f1, f2⟩

theorem Breaks.pair {f : Format α} {g : Format β} {F : α → Prop} {G : β → Prop}
    (hf : f.Breaks F) (rf : f.ReadsBack F) (hg : g.Breaks G) :
    (f.pair g).Breaks fun x => F x.1 ∧ G x.2 := by
  rintro ⟨a, b⟩ ⟨ha, hb⟩ front back he hne
  simp only [Format.pair] at he ⊢
  rcases List.append_eq_append_iff.1 he with ⟨m, h1, h2⟩ | ⟨m, h1, h2⟩
  · -- the break is in the second part
    have := hg b hb m back h2 hne
    rw [h1, rf a ha]; simp only [this]
  · by_cases hm : m = []
    · subst hm
      simp only [List.append_nil, List.nil_append] at h1 h2
      have := hg b hb [] back (by simpa using h2.symm) hne
      rw [← h1]
      have := rf a ha []
      simp only [List.append_nil] at this
      rw [this]; simp [*]
    · rw [hf a ha front m h1 hm]

/-! ## Lists -/

theorem readMany_encode {f : Format α} {F : α → Prop} (hf : f.ReadsBack F) (as : List α)
    (has : ∀ a ∈ as, F a) (rest : Bytes) :
    readMany f as.length (as.flatMap f.encode ++ rest) = .ok (as, rest) := by
  induction as with
  | nil => rfl
  | cons a as ih =>
      simp only [List.length_cons, List.flatMap_cons, List.append_assoc, readMany]
      rw [hf a (has a (by simp))]
      simp only
      rw [ih fun x hx => has x (by simp [hx])]

theorem canonical_readMany {f : Format α} {F : α → Prop} (hf : f.Canonical F) (n : Nat)
    (bytes : Bytes) (as : List α) (rest : Bytes) (h : readMany f n bytes = .ok (as, rest)) :
    as.length = n ∧ bytes = as.flatMap f.encode ++ rest ∧ ∀ a ∈ as, F a := by
  induction n generalizing bytes as with
  | zero => cases h; simp
  | succ n ih =>
      simp only [readMany] at h
      split at h
      · cases h
      · next a r1 h1 =>
          split at h
          · cases h
          · next as' r2 h2 =>
              cases h
              obtain ⟨e1, f1⟩ := hf _ _ _ h1
              obtain ⟨l2, e2, f2⟩ := ih _ _ h2
              refine ⟨by simp [l2], by simp [e1, ← e2], ?_⟩
              simpa using ⟨f1, f2⟩

theorem breaks_readMany {f : Format α} {F : α → Prop} (hf : f.Breaks F) (rf : f.ReadsBack F)
    (as : List α) (has : ∀ a ∈ as, F a) (front back : Bytes)
    (he : as.flatMap f.encode = front ++ back) (hne : back ≠ []) :
    readMany f as.length front = .error .endOfInput := by
  induction as generalizing front with
  | nil => simp at he; simp_all
  | cons a as ih =>
      simp only [List.length_cons, readMany]
      rw [List.flatMap_cons] at he
      have ha := has a (by simp)
      have has' : ∀ x ∈ as, F x := fun x hx => has x (by simp [hx])
      rcases List.append_eq_append_iff.1 he with ⟨m, h1, h2⟩ | ⟨m, h1, h2⟩
      · rw [h1, rf a ha]
        simp only [ih has' m h2]
      · by_cases hm : m = []
        · subst hm
          simp only [List.append_nil, List.nil_append] at h1 h2
          have h3 := rf a ha []
          simp only [List.append_nil] at h3
          rw [← h1, h3]
          simp only [ih has' [] (by simpa using h2.symm)]
        · rw [hf a ha front m h1 hm]

/-! ## Numbers of a fixed width -/

theorem readsBack_unsigned (width : Nat) : (unsigned width).ReadsBack fun n => n < 256 ^ width :=
  (readsBack_octets width).map fun n hn =>
    ⟨trivial, by rw [ofLittleEndian_littleEndian, Nat.mod_eq_of_lt hn]⟩

theorem canonical_unsigned (width : Nat) : (unsigned width).Canonical fun n => n < 256 ^ width :=
  (canonical_octets width).map fun o _ => by
    obtain ⟨bytes, rfl⟩ := o
    exact ⟨by simp only [littleEndian_ofLittleEndian], ofLittleEndian_lt bytes⟩

theorem breaks_unsigned (width : Nat) : (unsigned width).Breaks fun n => n < 256 ^ width :=
  (breaks_octets width).map fun _ _ => trivial

/-! ## Lists -/

theorem ReadsBack.list {f : Format α} {F : α → Prop} (hf : f.ReadsBack F) :
    (list f).ReadsBack fun as => as.length < 256 ^ 4 ∧ ∀ a ∈ as, F a := by
  rintro as ⟨hl, has⟩ rest
  have h := readsBack_unsigned 4 as.length hl (as.flatMap f.encode ++ rest)
  simp only [Format.list, Format.length, List.append_assoc, h]
  exact readMany_encode hf as has rest

theorem Canonical.list {f : Format α} {F : α → Prop} (hf : f.Canonical F) :
    (list f).Canonical fun as => as.length < 256 ^ 4 ∧ ∀ a ∈ as, F a := by
  intro bytes as rest h
  simp only [Format.list, Format.length] at h ⊢
  split at h
  · cases h
  · next n r1 h1 =>
      obtain ⟨e1, f1⟩ := canonical_unsigned 4 _ _ _ h1
      obtain ⟨l2, e2, f2⟩ := canonical_readMany hf _ _ _ _ h
      subst l2
      exact ⟨by rw [e1, e2, List.append_assoc], f1, f2⟩

theorem Breaks.list {f : Format α} {F : α → Prop} (hf : f.Breaks F) (rf : f.ReadsBack F) :
    (list f).Breaks fun as => as.length < 256 ^ 4 ∧ ∀ a ∈ as, F a := by
  rintro as ⟨hl, has⟩ front back he hne
  simp only [Format.list, Format.length] at he ⊢
  rcases List.append_eq_append_iff.1 he with ⟨m, h1, h2⟩ | ⟨m, h1, h2⟩
  · rw [h1, readsBack_unsigned 4 _ hl m]
    exact breaks_readMany hf rf as has m back h2 hne
  · by_cases hm : m = []
    · subst hm
      simp only [List.append_nil, List.nil_append] at h1 h2
      have h3 := readsBack_unsigned 4 _ hl []
      simp only [List.append_nil] at h3
      rw [← h1, h3]
      exact breaks_readMany hf rf as has [] back (by simpa using h2.symm) hne
    · rw [breaks_unsigned 4 _ hl front m h1 hm]

/-! ## Alternatives -/

theorem ReadsBack.either {f : Format α} {g : Format β} {F : α → Prop} {G : β → Prop}
    (hf : f.ReadsBack F) (hg : g.ReadsBack G) : (f.either g).ReadsBack (Sum.elim F G) := by
  rintro (a | b) h rest
  · simp [Format.either, hf a h]
  · simp [Format.either, hg b h]

theorem Canonical.either {f : Format α} {g : Format β} {F : α → Prop} {G : β → Prop}
    (hf : f.Canonical F) (hg : g.Canonical G) : (f.either g).Canonical (Sum.elim F G) := by
  intro bytes x rest h
  cases bytes with
  | nil => cases h
  | cons tag bytes =>
      simp only [Format.either] at h ⊢
      split at h
      · next ht =>
          split at h
          · cases h
          · next a r1 h1 =>
              cases h
              obtain ⟨e1, f1⟩ := hf _ _ _ h1
              exact ⟨by simp [ht, e1], f1⟩
      · split at h
        · next ht =>
            split at h
            · cases h
            · next b r1 h1 =>
                cases h
                obtain ⟨e1, f1⟩ := hg _ _ _ h1
                exact ⟨by simp [ht, e1], f1⟩
        · cases h

theorem Breaks.either {f : Format α} {g : Format β} {F : α → Prop} {G : β → Prop}
    (hf : f.Breaks F) (hg : g.Breaks G) : (f.either g).Breaks (Sum.elim F G) := by
  intro x h front back he hne
  cases front with
  | nil => rfl
  | cons tag front =>
      cases x with
      | inl a =>
          simp only [Format.either, List.cons_append, List.cons.injEq] at he ⊢
          obtain ⟨rfl, he⟩ := he
          simp [hf a h front back he hne]
      | inr b =>
          simp only [Format.either, List.cons_append, List.cons.injEq] at he ⊢
          obtain ⟨rfl, he⟩ := he
          simp [hg b h front back he hne]

/-! ## Bytes and texts -/

theorem readsBack_blob : blob.ReadsBack fun b => b.length < 256 ^ 4 := fun b hb =>
  readsBack_byte.list b ⟨hb, fun _ _ => trivial⟩

theorem canonical_blob : blob.Canonical fun b => b.length < 256 ^ 4 := fun bytes b rest h =>
  ⟨(canonical_byte.list bytes b rest h).1, (canonical_byte.list bytes b rest h).2.1⟩

theorem breaks_blob : blob.Breaks fun b => b.length < 256 ^ 4 := fun b hb =>
  breaks_byte.list readsBack_byte b ⟨hb, fun _ _ => trivial⟩

theorem readsBack_text : text.ReadsBack FitsText := by
  intro s hs rest
  simp only [text, readsBack_blob _ hs, Utf8.decode_bytes]

theorem canonical_text : text.Canonical FitsText := by
  intro bytes s rest h
  simp only [text] at h ⊢
  split at h
  · cases h
  · next b r1 h1 =>
      split at h
      · cases h
      · next s' hs =>
          cases h
          obtain ⟨e1, f1⟩ := canonical_blob _ _ _ h1
          have hb := Utf8.eq_bytes_of_decode hs
          subst hb
          exact ⟨e1, f1⟩

theorem breaks_text : text.Breaks FitsText := by
  intro s hs front back he hne
  simp only [text, breaks_blob _ hs front back he hne]

end Format

end BidQuorum
