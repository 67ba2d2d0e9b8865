import NearGit.Lib.Bytes

/-! Strings as their UTF-8 bytes, and bytes that need not be UTF-8 read as text. -/

namespace Lib.Utf8

def encode (s : String) : Bytes := s.toUTF8.data.toList

def decode (bs : Bytes) : Option String := String.fromUTF8? ⟨bs.toArray⟩

theorem decode_encode (s : String) : decode (encode s) = some s := by
  have hbytes : (⟨(encode s).toArray⟩ : ByteArray) = s.toByteArray := by
    simp [encode, String.toUTF8]
  rw [decode, hbytes, String.fromUTF8?, dif_pos s.isValidUTF8]
  rfl

theorem encode_of_decode {bs : Bytes} {s : String} (h : decode bs = some s) : encode s = bs := by
  rw [decode, String.fromUTF8?] at h
  split_ifs at h with hvalid
  cases h
  rfl

theorem encode_ofList (l : List Char) :
    encode (String.ofList l) = l.flatMap String.utf8EncodeChar := by
  simp [encode, String.toUTF8, List.utf8Encode]

theorem encode_append (l r : List Char) :
    encode (String.ofList (l ++ r)) = encode (String.ofList l) ++ encode (String.ofList r) := by
  rw [encode_ofList, encode_ofList, encode_ofList, List.flatMap_append]

theorem encode_injective {s t : String} (h : encode s = encode t) : s = t := by
  have hdecode := congrArg decode h
  rwa [decode_encode, decode_encode, Option.some.injEq] at hdecode

theorem length_le_encode (l : List Char) : l.length ≤ (encode (String.ofList l)).length := by
  rw [encode_ofList]
  induction l with
  | nil => rfl
  | cons c l ih =>
    have hc : 0 < (String.utf8EncodeChar c).length := by
      rw [String.length_utf8EncodeChar]
      exact c.utf8Size_pos
    rw [List.flatMap_cons, List.length_append, List.length_cons]
    omega

theorem length_encode_le (s : String) : (encode s).length ≤ 4 * s.toList.length := by
  obtain ⟨l, rfl⟩ : ∃ l, s = String.ofList l := ⟨s.toList, String.ofList_toList.symm⟩
  rw [encode_ofList, String.toList_ofList]
  induction l with
  | nil => rfl
  | cons c l ih =>
    have hc : (String.utf8EncodeChar c).length ≤ 4 := by
      rw [String.length_utf8EncodeChar]
      exact c.utf8Size_le_four
    rw [List.flatMap_cons, List.length_append, List.length_cons]
    omega

theorem encode_ascii {l : List Char} (h : ∀ c ∈ l, c.toNat < 128) :
    encode (String.ofList l) = l.map fun c => UInt8.ofNat c.toNat := by
  rw [encode_ofList, List.map_eq_flatMap]
  refine List.flatMap_congr fun c hc => ?_
  have hsmall : c.val.toNat ≤ 127 := Nat.le_of_lt_succ (h c hc)
  rw [String.utf8EncodeChar, if_pos hsmall]
  rfl

theorem length_encode_ascii {l : List Char} (h : ∀ c ∈ l, c.toNat < 128) :
    (encode (String.ofList l)).length = l.length := by
  rw [encode_ascii h, List.length_map]

/-! ## Lossy decoding -/

/-- A character that has begun: how many bytes it still needs, the range that the next of them
must be in, and the bits so far. -/
structure Begun where
  needed : ℕ
  lower : UInt8
  upper : UInt8
  bits : ℕ

def replacement : Char := Char.ofNat 0xFFFD

def lossyFirst (b : UInt8) : List Char × Option Begun :=
  if b < 0x80 then ([Char.ofNat b.toNat], none)
  else if 0xC2 ≤ b ∧ b ≤ 0xDF then
    ([], some { needed := 1, lower := 0x80, upper := 0xBF, bits := b.toNat % 32 })
  else if 0xE0 ≤ b ∧ b ≤ 0xEF then
    ([], some {
      needed := 2
      lower := if b = 0xE0 then 0xA0 else 0x80
      upper := if b = 0xED then 0x9F else 0xBF
      bits := b.toNat % 16 })
  else if 0xF0 ≤ b ∧ b ≤ 0xF4 then
    ([], some {
      needed := 3
      lower := if b = 0xF0 then 0x90 else 0x80
      upper := if b = 0xF4 then 0x8F else 0xBF
      bits := b.toNat % 8 })
  else ([replacement], none)

/-- One byte. A byte that does not continue the character that has begun is looked at again. -/
def lossyStep (begun : Option Begun) (b : UInt8) : List Char × Option Begun :=
  match begun with
  | none => lossyFirst b
  | some c =>
    if c.lower ≤ b ∧ b ≤ c.upper then
      let bits := c.bits * 64 + b.toNat % 64
      if c.needed = 1 then ([Char.ofNat bits], none)
      else ([], some { needed := c.needed - 1, lower := 0x80, upper := 0xBF, bits })
    else
      let (out, begun) := lossyFirst b
      (replacement :: out, begun)

def lossyFrom (begun : Option Begun) : Bytes → List Char
  | [] => if begun.isSome then [replacement] else []
  | b :: bs =>
    let (out, begun) := lossyStep begun b
    out ++ lossyFrom begun bs

/-- `String::from_utf8_lossy`. -/
def decodeLossy (bs : Bytes) : String := String.ofList (lossyFrom none bs)

example : decodeLossy [0x61, 0xE2, 0x82, 0x62, 0xC3, 0xA9, 0xFF] = "a\uFFFDbé\uFFFD" := by
  decide +kernel

theorem length_lossyFirst (b : UInt8) :
    (lossyFirst b).1.length + (lossyFirst b).2.toList.length = 1 := by
  unfold lossyFirst
  split_ifs <;> rfl

theorem length_lossyStep (begun : Option Begun) (b : UInt8) :
    (lossyStep begun b).1.length + (lossyStep begun b).2.toList.length ≤
      begun.toList.length + 1 := by
  have hfirst := length_lossyFirst b
  rcases begun with _ | c
  · exact hfirst.le
  · simp only [lossyStep]
    split_ifs
    · simp
    · simp
    · simp only [List.length_cons, Option.toList_some, List.length_nil]
      omega

theorem length_lossyFrom (begun : Option Begun) (bs : Bytes) :
    (lossyFrom begun bs).length ≤ begun.toList.length + bs.length := by
  induction bs generalizing begun with
  | nil => cases begun <;> simp [lossyFrom]
  | cons b bs ih =>
    have hstep := length_lossyStep begun b
    have hrest := ih (lossyStep begun b).2
    rw [lossyFrom, List.length_append, List.length_cons]
    omega

theorem length_decodeLossy (bs : Bytes) : (decodeLossy bs).toList.length ≤ bs.length := by
  simpa [decodeLossy] using length_lossyFrom none bs

/-! ## Text that is UTF-8, decoded lossily -/

theorem toNat_ofNat_byte {n : ℕ} (hn : n < 256) : (UInt8.ofNat n).toNat = n := by
  simp [Nat.mod_eq_of_lt hn]

theorem lossyFirst_ofNat {n : ℕ} (hn : n < 256) : lossyFirst (UInt8.ofNat n) =
    if n < 0x80 then ([Char.ofNat n], none)
    else if 0xC2 ≤ n ∧ n ≤ 0xDF then
      ([], some { needed := 1, lower := 0x80, upper := 0xBF, bits := n % 32 })
    else if 0xE0 ≤ n ∧ n ≤ 0xEF then
      ([], some {
        needed := 2
        lower := if n = 0xE0 then 0xA0 else 0x80
        upper := if n = 0xED then 0x9F else 0xBF
        bits := n % 16 })
    else if 0xF0 ≤ n ∧ n ≤ 0xF4 then
      ([], some {
        needed := 3
        lower := if n = 0xF0 then 0x90 else 0x80
        upper := if n = 0xF4 then 0x8F else 0xBF
        bits := n % 8 })
    else ([replacement], none) := by
  have hnat := toNat_ofNat_byte hn
  simp only [lossyFirst, UInt8.lt_iff_toNat_lt, UInt8.le_iff_toNat_le, ← UInt8.toNat_inj, hnat]
  rfl

theorem lossyFrom_none_cons (b : UInt8) (bs : Bytes) :
    lossyFrom none (b :: bs) = (lossyFirst b).1 ++ lossyFrom (lossyFirst b).2 bs := rfl

theorem lossyFrom_some_cons {c : Begun} {n : ℕ} (hlower : c.lower.toNat ≤ n)
    (hupper : n ≤ c.upper.toNat) (bs : Bytes) :
    lossyFrom (some c) (UInt8.ofNat n :: bs) =
      if c.needed = 1 then Char.ofNat (c.bits * 64 + n % 64) :: lossyFrom none bs
      else lossyFrom (some {
        needed := c.needed - 1
        lower := 0x80
        upper := 0xBF
        bits := c.bits * 64 + n % 64 }) bs := by
  have hnat := toNat_ofNat_byte (hupper.trans_lt c.upper.toNat_lt)
  have hrange : c.lower ≤ UInt8.ofNat n ∧ UInt8.ofNat n ≤ c.upper := by
    rw [UInt8.le_iff_toNat_le, UInt8.le_iff_toNat_le, hnat]
    exact ⟨hlower, hupper⟩
  rw [lossyFrom, lossyStep, if_pos hrange, hnat]
  split_ifs <;> rfl

theorem lossyFrom_some_mod (needed bits n : ℕ) (bs : Bytes) :
    lossyFrom (some { needed, lower := 0x80, upper := 0xBF, bits })
        (UInt8.ofNat (n % 64 + 0x80) :: bs) =
      if needed = 1 then Char.ofNat (bits * 64 + n % 64) :: lossyFrom none bs
      else lossyFrom (some {
        needed := needed - 1
        lower := 0x80
        upper := 0xBF
        bits := bits * 64 + n % 64 }) bs := by
  have hlower : (0x80 : UInt8).toNat ≤ n % 64 + 0x80 := Nat.le_add_left ..
  have hupper : n % 64 + 0x80 ≤ (0xBF : UInt8).toNat := by
    have hbound : (0xBF : UInt8).toNat = 0xBF := rfl
    omega
  have hbits : (n % 64 + 0x80) % 64 = n % 64 := by omega
  rw [lossyFrom_some_cons hlower hupper, hbits]

theorem toNat_ite_le {p : Prop} [Decidable p] {a b : UInt8} {n : ℕ} (ha : p → a.toNat ≤ n)
    (hb : b.toNat ≤ n) : (if p then a else b).toNat ≤ n := by
  split_ifs with h
  · exact ha h
  · exact hb

theorem le_toNat_ite {p : Prop} [Decidable p] {a b : UInt8} {n : ℕ} (ha : p → n ≤ a.toNat)
    (hb : n ≤ b.toNat) : n ≤ (if p then a else b).toNat := by
  split_ifs with h
  · exact ha h
  · exact hb

theorem lossyFrom_three {v : ℕ} (hlower : 0x7FF < v) (hupper : v ≤ 0xFFFF)
    (hscalar : v < 0xD800 ∨ 0xDFFF < v) (bs : Bytes) :
    lossyFrom none (UInt8.ofNat (v / 4096 % 16 + 0xE0) :: UInt8.ofNat (v / 64 % 64 + 0x80) :: bs) =
      lossyFrom (some { needed := 1, lower := 0x80, upper := 0xBF, bits := v / 64 }) bs := by
  have hbits : (v / 4096 % 16 + 0xE0) % 16 * 64 + (v / 64 % 64 + 0x80) % 64 = v / 64 := by omega
  rw [lossyFrom_none_cons, lossyFirst_ofNat (by omega), if_neg (by omega), if_neg (by omega),
    if_pos (by omega), List.nil_append, lossyFrom_some_cons, if_neg (show 2 ≠ 1 by decide)]
  · simp only [hbits]
  · refine toNat_ite_le ?_ (Nat.le_add_left ..)
    simp only [UInt8.reduceToNat]
    omega
  · refine le_toNat_ite ?_ ?_
    · simp only [UInt8.reduceToNat]
      omega
    · simp only [UInt8.reduceToNat]
      omega

theorem lossyFrom_four {v : ℕ} (hlower : 0xFFFF < v) (hupper : v < 0x110000) (bs : Bytes) :
    lossyFrom none
        (UInt8.ofNat (v / 262144 % 8 + 0xF0) :: UInt8.ofNat (v / 4096 % 64 + 0x80) :: bs) =
      lossyFrom (some { needed := 2, lower := 0x80, upper := 0xBF, bits := v / 4096 }) bs := by
  have hbits : (v / 262144 % 8 + 0xF0) % 8 * 64 + (v / 4096 % 64 + 0x80) % 64 = v / 4096 := by
    omega
  rw [lossyFrom_none_cons, lossyFirst_ofNat (by omega), if_neg (by omega), if_neg (by omega),
    if_neg (by omega), if_pos (by omega), List.nil_append, lossyFrom_some_cons,
    if_neg (show 3 ≠ 1 by decide)]
  · simp only [hbits]
  · refine toNat_ite_le ?_ (Nat.le_add_left ..)
    simp only [UInt8.reduceToNat]
    omega
  · refine le_toNat_ite ?_ ?_
    · simp only [UInt8.reduceToNat]
      omega
    · simp only [UInt8.reduceToNat]
      omega

theorem lossyFrom_utf8EncodeChar (c : Char) (rest : Bytes) :
    lossyFrom none (String.utf8EncodeChar c ++ rest) = c :: lossyFrom none rest := by
  have hscalar : c.toNat < 0xD800 ∨ 0xDFFF < c.toNat ∧ c.toNat < 0x110000 := c.valid
  have hback : Char.ofNat c.toNat = c := Char.ofNat_toNat c
  have hv : c.val.toNat = c.toNat := rfl
  rw [String.utf8EncodeChar, hv]
  generalize c.toNat = v at hscalar hback
  subst hback
  -- The cases are the lengths.
  split_ifs with h1 h2 h3
  · rw [List.singleton_append, lossyFrom_none_cons, lossyFirst_ofNat (by omega),
      if_pos (by omega)]
    rfl
  · have hbits : (v / 64 % 32 + 0xC0) % 32 * 64 + v % 64 = v := by omega
    rw [List.cons_append, List.singleton_append, lossyFrom_none_cons, lossyFirst_ofNat (by omega),
      if_neg (by omega), if_pos (by omega), List.nil_append, lossyFrom_some_mod, if_pos rfl, hbits]
  · simp only [List.cons_append, List.nil_append]
    rw [lossyFrom_three (by omega) (by omega) (by omega), lossyFrom_some_mod, if_pos rfl,
      Nat.div_add_mod']
  · have hbits : v / 4096 * 64 + v / 64 % 64 = v / 64 := by omega
    simp only [List.cons_append, List.nil_append]
    rw [lossyFrom_four (by omega) (by omega), lossyFrom_some_mod, if_neg (show 2 ≠ 1 by decide),
      hbits, lossyFrom_some_mod, if_pos rfl, Nat.div_add_mod']

theorem decodeLossy_encode (s : String) : decodeLossy (encode s) = s := by
  obtain ⟨l, rfl⟩ : ∃ l, s = String.ofList l := ⟨s.toList, String.ofList_toList.symm⟩
  rw [encode_ofList, decodeLossy]
  congr 1
  induction l with
  | nil => rfl
  | cons c l ih => rw [List.flatMap_cons, lossyFrom_utf8EncodeChar, ih]

end Lib.Utf8
