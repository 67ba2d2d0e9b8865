import NearGit.Lib.Utf8
import Mathlib.Data.List.Basic

/-! The Borsh encodings of `u32`, `Vec`, `String`, `Option` and of fields behind each other. -/

namespace Lib.Borsh

variable {α β : Type}

def le32 (n : Nat) : Bytes :=
  [UInt8.ofNat n, UInt8.ofNat (n >>> 8), UInt8.ofNat (n >>> 16), UInt8.ofNat (n >>> 24)]

def fromLe32 (a b c d : UInt8) : Nat :=
  a.toNat + b.toNat * 2 ^ 8 + c.toNat * 2 ^ 16 + d.toNat * 2 ^ 24

/-- A type with its encoding, which fails where a length does not fit a `u32`. What was encoded is
read back whatever follows it. -/
structure Codec (α : Type) where
  serialize : α → Option Bytes
  deserialize : Bytes → Option (α × Bytes)
  deserialize_append : ∀ {a : α} {bs : Bytes}, serialize a = some bs → ∀ rest,
    deserialize (bs ++ rest) = some (a, rest)

/-- `try_from_slice`: all of the input is consumed. -/
def Codec.tryFromSlice (c : Codec α) (bs : Bytes) : Option α :=
  match c.deserialize bs with
  | some (a, []) => some a
  | _ => none

theorem Codec.tryFromSlice_eq (c : Codec α) {a : α} {bs : Bytes} (h : c.serialize a = some bs) :
    c.tryFromSlice bs = some a := by
  have hread := c.deserialize_append h []
  rw [List.append_nil] at hread
  rw [tryFromSlice, hread]

/-! ## Lengths -/

def serializeLen (n : Nat) : Option Bytes := if n < 2 ^ 32 then some (le32 n) else none

def deserializeLen : Bytes → Option (Nat × Bytes)
  | a :: b :: c :: d :: rest => some (fromLe32 a b c d, rest)
  | _ => none

theorem serializeLen_of_lt {n : Nat} (h : n < 2 ^ 32) : serializeLen n = some (le32 n) := if_pos h

theorem deserializeLen_le32 {n : Nat} (h : n < 2 ^ 32) (rest : Bytes) :
    deserializeLen (le32 n ++ rest) = some (n, rest) := by
  have hvalue : fromLe32 (UInt8.ofNat n) (UInt8.ofNat (n >>> 8)) (UInt8.ofNat (n >>> 16))
      (UInt8.ofNat (n >>> 24)) = n := by
    simp only [fromLe32, UInt8.toNat_ofNat', Nat.shiftRight_eq_div_pow]
    omega
  rw [le32, List.cons_append, List.cons_append, List.cons_append, List.cons_append, deserializeLen,
    hvalue]
  rfl

theorem le32_fromLe32 (a b c d : UInt8) : le32 (fromLe32 a b c d) = [a, b, c, d] := by
  have ha := a.toNat_lt
  have hb := b.toNat_lt
  have hc := c.toNat_lt
  have hd := d.toNat_lt
  simp only [le32, fromLe32, List.cons.injEq, and_true, ← UInt8.toNat_inj, UInt8.toNat_ofNat',
    Nat.shiftRight_eq_div_pow]
  omega

theorem fromLe32_lt (a b c d : UInt8) : fromLe32 a b c d < 2 ^ 32 := by
  have ha := a.toNat_lt
  have hb := b.toNat_lt
  have hc := c.toNat_lt
  have hd := d.toNat_lt
  unfold fromLe32
  omega

theorem deserializeLen_eq_some {n : Nat} {bs rest : Bytes} :
    deserializeLen bs = some (n, rest) ↔ n < 2 ^ 32 ∧ bs = le32 n ++ rest := by
  constructor
  · intro h
    unfold deserializeLen at h
    split at h
    · cases h
      rw [le32_fromLe32]
      exact ⟨fromLe32_lt .., rfl⟩
    · cases h
  · rintro ⟨hn, rfl⟩
    exact deserializeLen_le32 hn rest

theorem deserializeLen_append {n : Nat} {bs : Bytes} (h : serializeLen n = some bs)
    (rest : Bytes) : deserializeLen (bs ++ rest) = some (n, rest) := by
  unfold serializeLen at h
  split_ifs at h with hlt
  cases h
  exact deserializeLen_le32 hlt rest

/-! ## The encodings -/

def bytes : Codec Bytes where
  serialize bs := do
    let len ← serializeLen bs.length
    return len ++ bs
  deserialize input := do
    let (n, rest) ← deserializeLen input
    if rest.length < n then none else some (rest.take n, rest.drop n)
  deserialize_append := by
    intro bs out h rest
    obtain ⟨len, hlen, hout⟩ := Option.bind_eq_some_iff.mp h
    cases hout
    rw [List.append_assoc, deserializeLen_append hlen]
    simp

def Codec.map (c : Codec α) (f : α → Option β) (g : β → α) (hfg : ∀ b, f (g b) = some b) :
    Codec β where
  serialize b := c.serialize (g b)
  deserialize input := do
    let (a, rest) ← c.deserialize input
    let b ← f a
    return (b, rest)
  deserialize_append := by
    intro b bs h rest
    rw [c.deserialize_append h]
    simp [hfg]

def string : Codec String := bytes.map Utf8.decode Utf8.encode Utf8.decode_encode

def option (c : Codec α) : Codec (Option α) where
  serialize
    | none => some [0]
    | some a => do
      let bs ← c.serialize a
      return 1 :: bs
  deserialize
    | 0 :: rest => some (none, rest)
    | 1 :: rest => do
      let (a, rest) ← c.deserialize rest
      return (some a, rest)
    | _ => none
  deserialize_append := by
    intro a bs h rest
    cases a with
    | none =>
      cases h
      rfl
    | some a =>
      obtain ⟨bs', hbs', hbs⟩ := Option.bind_eq_some_iff.mp h
      cases hbs
      simp [c.deserialize_append hbs']

def pair (c : Codec α) (d : Codec β) : Codec (α × β) where
  serialize | (a, b) => do
    let front ← c.serialize a
    let back ← d.serialize b
    return front ++ back
  deserialize input := do
    let (a, rest) ← c.deserialize input
    let (b, rest) ← d.deserialize rest
    return ((a, b), rest)
  deserialize_append := by
    rintro ⟨a, b⟩ bs h rest
    obtain ⟨front, hfront, h⟩ := Option.bind_eq_some_iff.mp h
    obtain ⟨back, hback, hbs⟩ := Option.bind_eq_some_iff.mp h
    cases hbs
    rw [List.append_assoc, c.deserialize_append hfront]
    simp [d.deserialize_append hback]

def readMany (c : Codec α) : Nat → Bytes → Option (List α × Bytes)
  | 0, input => some ([], input)
  | n + 1, input => do
    let (a, rest) ← c.deserialize input
    let (as, rest) ← readMany c n rest
    return (a :: as, rest)

theorem readMany_append (c : Codec α) {as : List α} {parts : List Bytes}
    (h : as.mapM c.serialize = some parts) (rest : Bytes) :
    readMany c as.length (parts.flatten ++ rest) = some (as, rest) := by
  induction as generalizing parts with
  | nil =>
    cases h
    rfl
  | cons a as ih =>
    rw [List.mapM_cons] at h
    obtain ⟨part, hpart, h⟩ := Option.bind_eq_some_iff.mp h
    obtain ⟨parts', hparts, hcons⟩ := Option.bind_eq_some_iff.mp h
    cases hcons
    rw [List.length_cons, readMany, List.flatten_cons, List.append_assoc,
      c.deserialize_append hpart]
    simp [ih hparts]

def vec (c : Codec α) : Codec (List α) where
  serialize as := do
    let len ← serializeLen as.length
    let parts ← as.mapM c.serialize
    return len ++ parts.flatten
  deserialize input := do
    let (n, rest) ← deserializeLen input
    readMany c n rest
  deserialize_append := by
    intro as bs h rest
    obtain ⟨len, hlen, h⟩ := Option.bind_eq_some_iff.mp h
    obtain ⟨parts, hparts, hbs⟩ := Option.bind_eq_some_iff.mp h
    cases hbs
    rw [List.append_assoc, deserializeLen_append hlen]
    exact readMany_append c hparts rest

/-! ## What is written -/

theorem serialize_bytes {bs : Bytes} (h : bs.length < 2 ^ 32) :
    bytes.serialize bs = some (le32 bs.length ++ bs) := by
  rw [bytes]
  simp only [serializeLen_of_lt h]
  rfl

theorem serialize_string {s : String} (h : (Utf8.encode s).length < 2 ^ 32) :
    string.serialize s = some (le32 (Utf8.encode s).length ++ Utf8.encode s) :=
  serialize_bytes h

theorem serialize_pair {c : Codec α} {d : Codec β} {a : α} {b : β} {front back : Bytes}
    (ha : c.serialize a = some front) (hb : d.serialize b = some back) :
    (pair c d).serialize (a, b) = some (front ++ back) := by
  rw [pair]
  simp only [ha, hb]
  rfl

theorem serializeLen_eq_some {n : Nat} {out : Bytes} (h : serializeLen n = some out) :
    n < 2 ^ 32 ∧ out = le32 n := by
  unfold serializeLen at h
  split_ifs at h with hlt
  cases h
  exact ⟨hlt, rfl⟩

theorem forall₂_of_mapM {f : α → Option β} {as : List α} {bs : List β}
    (h : as.mapM f = some bs) : List.Forall₂ (fun a b => f a = some b) as bs := by
  induction as generalizing bs with
  | nil =>
    cases h
    exact .nil
  | cons a as ih =>
    rw [List.mapM_cons] at h
    obtain ⟨b, hb, h⟩ := Option.bind_eq_some_iff.mp h
    obtain ⟨bs, hbs, h⟩ := Option.bind_eq_some_iff.mp h
    cases h
    exact .cons hb (ih hbs)

theorem serialize_bytes_eq_some {bs out : Bytes} (h : bytes.serialize bs = some out) :
    bs.length < 2 ^ 32 ∧ out = le32 bs.length ++ bs := by
  obtain ⟨len, hlen, h⟩ := Option.bind_eq_some_iff.mp h
  cases h
  obtain ⟨hlt, rfl⟩ := serializeLen_eq_some hlen
  exact ⟨hlt, rfl⟩

theorem serialize_pair_eq_some {c : Codec α} {d : Codec β} {a : α} {b : β} {out : Bytes}
    (h : (pair c d).serialize (a, b) = some out) :
    ∃ front back, c.serialize a = some front ∧ d.serialize b = some back ∧
      out = front ++ back := by
  obtain ⟨front, hfront, h⟩ := Option.bind_eq_some_iff.mp h
  obtain ⟨back, hback, h⟩ := Option.bind_eq_some_iff.mp h
  cases h
  exact ⟨front, back, hfront, hback, rfl⟩

theorem serialize_vec_eq_some {c : Codec α} {as : List α} {out : Bytes}
    (h : (vec c).serialize as = some out) : as.length < 2 ^ 32 ∧
      ∃ parts, List.Forall₂ (fun a part => c.serialize a = some part) as parts ∧
        out = le32 as.length ++ parts.flatten := by
  obtain ⟨len, hlen, h⟩ := Option.bind_eq_some_iff.mp h
  obtain ⟨parts, hparts, h⟩ := Option.bind_eq_some_iff.mp h
  cases h
  obtain ⟨hlt, rfl⟩ := serializeLen_eq_some hlen
  exact ⟨hlt, parts, forall₂_of_mapM hparts, rfl⟩

/-! ## Fixed widths -/

def le : (w n : Nat) → Bytes
  | 0, _ => []
  | w + 1, n => UInt8.ofNat n :: le w (n / 256)

def fromLe : Bytes → Nat
  | [] => 0
  | b :: bs => b.toNat + 256 * fromLe bs

@[simp] theorem length_le (w n : Nat) : (le w n).length = w := by
  induction w generalizing n with
  | zero => rfl
  | succ w ih => rw [le, List.length_cons, ih]

theorem fromLe_le {w n : Nat} (h : n < 256 ^ w) : fromLe (le w n) = n := by
  induction w generalizing n with
  | zero =>
    have hzero : n = 0 := by simpa using h
    rw [hzero]
    rfl
  | succ w ih =>
    have hdiv : n / 256 < 256 ^ w := by
      rw [pow_succ'] at h
      exact Nat.div_lt_of_lt_mul h
    rw [le, fromLe, ih hdiv, UInt8.toNat_ofNat']
    exact Nat.mod_add_div n 256

def uint (w : Nat) : Codec Nat where
  serialize n := if n < 256 ^ w then some (le w n) else none
  deserialize input :=
    if input.length < w then none else some (fromLe (input.take w), input.drop w)
  deserialize_append := by
    intro n bs h rest
    split_ifs at h with hlt
    cases h
    have hlen : (le w n).length = w := length_le w n
    rw [if_neg (by simp), List.take_left' hlen, List.drop_left' hlen, fromLe_le hlt]

theorem serialize_uint {w n : Nat} (h : n < 256 ^ w) : (uint w).serialize n = some (le w n) :=
  if_pos h

def array (n : Nat) : Codec (Vector UInt8 n) where
  serialize v := some v.toList
  deserialize input :=
    if h : n ≤ input.length then
      some (⟨(input.take n).toArray, by simp [h]⟩, input.drop n)
    else none
  deserialize_append := by
    intro v bs h rest
    cases h
    have hlen : v.toList.length = n := by simp
    have hread : (⟨v.toList.toArray, by simp⟩ : Vector UInt8 n) = v := rfl
    rw [dif_pos (by simp)]
    simp only [List.take_left' hlen, List.drop_left' hlen, hread]

/-- The tag of the one variant there is, or the count of the one element. -/
def exactly (tag : Bytes) : Codec Unit where
  serialize _ := some tag
  deserialize input := if tag <+: input then some ((), input.drop tag.length) else none
  deserialize_append := by
    intro _ bs h rest
    cases h
    rw [if_pos (List.prefix_append ..), List.drop_left]

/-! ## What can be encoded -/

theorem isSome_bind_pure {α β : Type} (x : Option α) (f : α → β) :
    (x >>= fun a => pure (f a)).isSome = x.isSome := by
  cases x <;> rfl

theorem serializeLen_isSome {n : Nat} : (serializeLen n).isSome = true ↔ n < 2 ^ 32 := by
  rw [serializeLen]
  split_ifs with h
  · exact iff_of_true rfl h
  · exact iff_of_false Bool.false_ne_true h

theorem bytes_isSome {bs : Bytes} : (bytes.serialize bs).isSome = true ↔ bs.length < 2 ^ 32 := by
  rw [← serializeLen_isSome]
  exact Bool.eq_iff_iff.mp (isSome_bind_pure _ _)

theorem string_isSome {s : String} :
    (string.serialize s).isSome = true ↔ (Utf8.encode s).length < 2 ^ 32 := bytes_isSome

theorem option_isSome (c : Codec α) {o : Option α} :
    ((option c).serialize o).isSome = true ↔ ∀ a ∈ o, (c.serialize a).isSome = true := by
  cases o with
  | none => exact iff_of_true rfl (by simp)
  | some a =>
    simp only [Option.mem_some_iff, forall_eq']
    exact Bool.eq_iff_iff.mp (isSome_bind_pure _ _)

theorem pair_isSome (c : Codec α) (d : Codec β) {a : α} {b : β} :
    ((pair c d).serialize (a, b)).isSome = true ↔
      (c.serialize a).isSome = true ∧ (d.serialize b).isSome = true := by
  rcases hfront : c.serialize a with _ | front
  · simp [pair, hfront]
  · rcases hback : d.serialize b with _ | back
    · simp [pair, hfront, hback]
    · simp [pair, hfront, hback]

theorem mapM_isSome {f : α → Option β} {as : List α} :
    (as.mapM f).isSome = true ↔ ∀ a ∈ as, (f a).isSome = true := by
  induction as with
  | nil => exact iff_of_true rfl (by simp)
  | cons a as ih =>
    rw [List.mapM_cons, List.forall_mem_cons, ← ih]
    rcases f a with _ | b
    · simp
    · rcases as.mapM f with _ | bs
      · simp
      · simp

theorem vec_isSome (c : Codec α) {as : List α} : ((vec c).serialize as).isSome = true ↔
    as.length < 2 ^ 32 ∧ ∀ a ∈ as, (c.serialize a).isSome = true := by
  rw [← serializeLen_isSome, ← mapM_isSome]
  rcases hlen : serializeLen as.length with _ | len
  · simp [vec, hlen]
  · rcases hparts : as.mapM c.serialize with _ | parts
    · simp [vec, hlen, hparts]
    · simp [vec, hlen, hparts]

end Lib.Borsh
