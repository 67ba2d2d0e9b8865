import Mathlib.Data.List.Induction
import NearGit.Lib.Outcome
import NearGit.Lib.Bytes

/-! Base-128 varints. A varint is a run of bytes with the high bit set, closed by
one with it clear; seven bits of each byte count. Two readings are in use: least
significant group first, and most significant first with a bias that leaves no
number two encodings. -/

namespace Lib.Varint

/-- All bytes but the last carry the continuation bit. -/
def IsVarint : Bytes → Prop
  | [] => False
  | [last] => last.toNat < 128
  | byte :: next :: rest => 128 ≤ byte.toNat ∧ IsVarint (next :: rest)

instance decidableIsVarint : DecidablePred IsVarint
  | [] => inferInstanceAs (Decidable False)
  | [last] => inferInstanceAs (Decidable (last.toNat < 128))
  | byte :: next :: rest =>
    have := decidableIsVarint (next :: rest)
    inferInstanceAs (Decidable (128 ≤ byte.toNat ∧ IsVarint (next :: rest)))

theorem IsVarint.ne_nil {bs : Bytes} (h : IsVarint bs) : bs ≠ [] := by
  rintro rfl
  exact h

theorem isVarint_singleton (b : UInt8) : IsVarint [b] ↔ b.toNat < 128 := Iff.rfl

theorem isVarint_cons {b : UInt8} {bs : Bytes} (hbs : bs ≠ []) :
    IsVarint (b :: bs) ↔ 128 ≤ b.toNat ∧ IsVarint bs := by
  cases bs with
  | nil => exact absurd rfl hbs
  | cons c bs => rfl

def leValue : Bytes → Nat
  | [] => 0
  | byte :: rest => byte.toNat % 128 + 128 * leValue rest

def encode (val : Nat) : Bytes :=
  let byte := UInt8.ofNat (val &&& 0x7f)
  if 0 < val >>> 7 then (byte ||| 0x80) :: encode (val >>> 7) else [byte]
termination_by val
decreasing_by
  simp only [Nat.shiftRight_eq_div_pow] at *
  omega

theorem and_7f_eq_mod (val : Nat) : val &&& 0x7f = val % 128 := Nat.and_two_pow_sub_one_eq_mod val 7

theorem low_toNat (val : Nat) : (UInt8.ofNat (val &&& 0x7f)).toNat = val % 128 := by
  rw [and_7f_eq_mod, UInt8.toNat_ofNat']
  omega

theorem encode_of_lt {val : Nat} (h : val < 128) : encode val = [UInt8.ofNat (val &&& 0x7f)] := by
  rw [encode]
  simp only [Nat.shiftRight_eq_div_pow]
  rw [if_neg (by omega)]

theorem encode_of_le {val : Nat} (h : 128 ≤ val) :
    encode val = (UInt8.ofNat (val &&& 0x7f) ||| 0x80) :: encode (val / 128) := by
  rw [encode]
  simp only [Nat.shiftRight_eq_div_pow]
  rw [if_pos (by omega)]

theorem encode_ne_nil (val : Nat) : encode val ≠ [] := by
  rcases lt_or_ge val 128 with h | h
  · simp [encode_of_lt h]
  · simp [encode_of_le h]

theorem isVarint_encode (val : Nat) : IsVarint (encode val) := by
  induction val using Nat.strong_induction_on with
  | _ val ih =>
    rcases lt_or_ge val 128 with h | h
    · rw [encode_of_lt h, isVarint_singleton, low_toNat]
      omega
    · rw [encode_of_le h, isVarint_cons (encode_ne_nil _), Byte.or_80_toNat _ (by
        rw [low_toNat]; omega)]
      exact ⟨by omega, ih _ (by omega)⟩

theorem leValue_encode (val : Nat) : leValue (encode val) = val := by
  induction val using Nat.strong_induction_on with
  | _ val ih =>
    rcases lt_or_ge val 128 with h | h
    · rw [encode_of_lt h, leValue, leValue, low_toNat]
      omega
    · rw [encode_of_le h, leValue, ih _ (by omega), Byte.or_80_toNat _ (by
        rw [low_toNat]; omega), low_toNat]
      omega

theorem encode_length_le (k : Nat) {val : Nat} (h : val < 128 ^ (k + 1)) :
    (encode val).length ≤ k + 1 := by
  induction k generalizing val with
  | zero =>
    rw [encode_of_lt (by simpa using h)]
    rfl
  | succ k ih =>
    rcases lt_or_ge val 128 with hlt | hge
    · rw [encode_of_lt hlt]
      simp
    · have hdiv : val / 128 < 128 ^ (k + 1) := by
        rw [Nat.div_lt_iff_lt_mul (by decide)]
        rwa [pow_succ] at h
      rw [encode_of_le hge, List.length_cons]
      exact Nat.succ_le_succ (ih hdiv)

/-- The reading loop, least significant group first, into a 64-bit accumulator: the
groups are shifted into place, and a shift of 64 or more panics. Returns the number and
the count of bytes read. -/
def read (eof : String) : (size shift used : Nat) → Bytes → Outcome (Nat × Nat)
  | _, _, _, [] => .err eof
  | size, shift, used, byte :: rest =>
    if 64 ≤ shift then .panic .shiftOverflow
    else
      let size := size ||| ((byte &&& 0x7f).toNat <<< shift) % 2 ^ 64
      if byte &&& 0x80 = 0 then .ok (size, used + 1)
      else read eof size (shift + 7) (used + 1) rest

theorem or_shiftLeft_mod {size shift : Nat} (x : Nat) (hsize : size < 2 ^ shift)
    (hshift : shift < 64) :
    size ||| (x <<< shift) % 2 ^ 64 = (size + x * 2 ^ shift) % 2 ^ 64 := by
  have hlt : size < 2 ^ 64 := hsize.trans (Nat.pow_lt_pow_right (by decide) hshift)
  calc size ||| (x <<< shift) % 2 ^ 64 = size % 2 ^ 64 ||| (x <<< shift) % 2 ^ 64 := by
        rw [Nat.mod_eq_of_lt hlt]
    _ = (size ||| x <<< shift) % 2 ^ 64 := by rw [Nat.or_mod_two_pow]
    _ = (size + x * 2 ^ shift) % 2 ^ 64 := by rw [or_shiftLeft_eq_add x hsize]

theorem acc_lt {size shift : Nat} (b : UInt8) (hsize : size < 2 ^ shift) :
    (size + b.toNat % 128 * 2 ^ shift) % 2 ^ 64 < 2 ^ (shift + 7) := by
  refine (Nat.mod_le _ _).trans_lt ?_
  have hb : b.toNat % 128 ≤ 127 := by omega
  calc size + b.toNat % 128 * 2 ^ shift < 2 ^ shift + 127 * 2 ^ shift :=
        Nat.add_lt_add_of_lt_of_le hsize (Nat.mul_le_mul_right _ hb)
    _ = 2 ^ (shift + 7) := by ring

theorem read_append (eof : String) {bs : Bytes} (hbs : IsVarint bs) (rest : Bytes) :
    ∀ {size shift : Nat} (used : Nat), size < 2 ^ shift → shift + 7 * (bs.length - 1) < 64 →
      read eof size shift used (bs ++ rest) =
        .ok ((size + leValue bs * 2 ^ shift) % 2 ^ 64, used + bs.length) := by
  induction bs with
  | nil => exact hbs.elim
  | cons b bs ih =>
    intro size shift used hsize hshift
    have hlt : shift < 64 := by omega
    rw [List.cons_append, read, if_neg (not_le.mpr hlt), Byte.and_7f_toNat,
      or_shiftLeft_mod _ hsize hlt]
    rcases eq_or_ne bs [] with rfl | hne
    · rw [if_pos ((Byte.and_80_eq_zero_iff b).mpr hbs)]
      simp [leValue]
    · obtain ⟨hb, hbs⟩ := (isVarint_cons hne).mp hbs
      have hpos : 0 < bs.length := List.length_pos_of_ne_nil hne
      rw [if_neg ((Byte.and_80_ne_zero_iff b).mpr hb), ih hbs _ (acc_lt b hsize) (by
        simp only [List.length_cons] at hshift
        omega)]
      congr 2
      · rw [Nat.mod_add_mod, leValue]
        congr 1
        ring
      · rw [List.length_cons]
        omega

/-! ## Bytes that are no varint -/

def AllHigh (bs : Bytes) : Prop := ∀ b ∈ bs, 128 ≤ b.toNat

def Overlong (k : Nat) (bs : Bytes) : Prop := k < bs.length ∧ AllHigh (bs.take k)

theorem IsVarint.cons {b : UInt8} {bs : Bytes} (hb : 128 ≤ b.toNat) (hbs : IsVarint bs) :
    IsVarint (b :: bs) := (isVarint_cons hbs.ne_nil).mpr ⟨hb, hbs⟩

theorem isVarint_or (k : Nat) (bs : Bytes) :
    (∃ v rest, bs = v ++ rest ∧ IsVarint v ∧ v.length ≤ k) ∨ Overlong k bs ∨
      AllHigh bs ∧ bs.length ≤ k := by
  induction bs generalizing k with
  | nil => exact .inr (.inr ⟨fun b hb => absurd hb List.not_mem_nil, Nat.zero_le _⟩)
  | cons b bs ih =>
    cases k with
    | zero => exact .inr (.inl ⟨by simp, fun b hb => absurd hb (by simp)⟩)
    | succ k =>
      rcases lt_or_ge b.toNat 128 with hb | hb
      · exact .inl ⟨[b], bs, rfl, hb, by simp⟩
      · rcases ih k with ⟨v, rest, rfl, hv, hlen⟩ | ⟨hlen, hhigh⟩ | ⟨hhigh, hlen⟩
        · exact .inl ⟨b :: v, rest, rfl, hv.cons hb, Nat.succ_le_succ hlen⟩
        · refine .inr (.inl ⟨Nat.succ_lt_succ hlen, ?_⟩)
          exact List.forall_mem_cons.mpr ⟨hb, hhigh⟩
        · exact .inr (.inr ⟨List.forall_mem_cons.mpr ⟨hb, hhigh⟩, Nat.succ_le_succ hlen⟩)

theorem read_overlong (eof : String) {k : Nat} {bs : Bytes} (h : Overlong k bs) {shift : Nat}
    (hshift : 64 ≤ shift + 7 * k) (size used : Nat) :
    read eof size shift used bs = .panic .shiftOverflow := by
  induction bs generalizing k shift size used with
  | nil => exact absurd h.1 (Nat.not_lt_zero k)
  | cons b bs ih =>
    rw [read]
    rcases le_or_gt 64 shift with hge | hlt
    · rw [if_pos hge]
    · obtain ⟨k, rfl⟩ : ∃ j, k = j + 1 := Nat.exists_eq_succ_of_ne_zero (by omega)
      obtain ⟨hlen, hhigh⟩ := h
      rw [List.take_succ_cons] at hhigh
      obtain ⟨hb, hrest⟩ := List.forall_mem_cons.mp hhigh
      rw [if_neg (not_le.mpr hlt)]
      simp only [if_neg ((Byte.and_80_ne_zero_iff b).mpr hb)]
      exact ih ⟨Nat.lt_of_succ_lt_succ hlen, hrest⟩ (by omega) _ _

theorem read_allHigh (eof : String) {bs : Bytes} (h : AllHigh bs) {shift : Nat}
    (hshift : shift + 7 * bs.length < 71) (size used : Nat) :
    read eof size shift used bs = .err eof := by
  induction bs generalizing shift size used with
  | nil => rfl
  | cons b bs ih =>
    obtain ⟨hb, hrest⟩ := List.forall_mem_cons.mp h
    rw [List.length_cons] at hshift
    rw [read, if_neg (by omega)]
    simp only [if_neg ((Byte.and_80_ne_zero_iff b).mpr hb)]
    exact ih hrest (by omega) _ _

/-! ## Most significant group first -/

/-- One more group behind a number, most significant group first: the number before it
counts one more. -/
def ofsFold (v : Nat) (bs : Bytes) : Nat := bs.foldl (fun v b => (v + 1) * 128 + b.toNat % 128) v

def ofsValue : Bytes → Nat
  | [] => 0
  | byte :: rest => ofsFold (byte.toNat % 128) rest

@[simp] theorem ofsFold_nil (v : Nat) : ofsFold v [] = v := rfl

@[simp] theorem ofsFold_cons (v : Nat) (b : UInt8) (bs : Bytes) :
    ofsFold v (b :: bs) = ofsFold ((v + 1) * 128 + b.toNat % 128) bs := rfl

theorem ofsFold_append (v : Nat) (bs cs : Bytes) :
    ofsFold v (bs ++ cs) = ofsFold (ofsFold v bs) cs := List.foldl_append ..

theorem le_ofsFold (v : Nat) (bs : Bytes) : v ≤ ofsFold v bs := by
  induction bs generalizing v with
  | nil => exact le_rfl
  | cons b bs ih =>
    rw [ofsFold_cons]
    exact le_trans (by omega) (ih _)

/-- The writing loop for a varint most significant group first. The loop pushes the groups
behind each other and reverses them at the end; here each goes to the front. -/
def ofsEncodeLoop (off : Nat) (bytes : Bytes) : Bytes :=
  if 0 < off then
    ofsEncodeLoop ((off - 1) >>> 7) ((UInt8.ofNat ((off - 1) &&& 0x7f) ||| 0x80) :: bytes)
  else bytes
termination_by off
decreasing_by
  simp only [Nat.shiftRight_eq_div_pow]
  omega

def ofsEncode (offset : Nat) : Bytes :=
  ofsEncodeLoop (offset >>> 7) [UInt8.ofNat (offset &&& 0x7f)]

theorem ofsEncodeLoop_zero (bytes : Bytes) : ofsEncodeLoop 0 bytes = bytes := by
  rw [ofsEncodeLoop, if_neg (lt_irrefl 0)]

theorem ofsEncodeLoop_succ (off : Nat) (bytes : Bytes) :
    ofsEncodeLoop (off + 1) bytes =
      ofsEncodeLoop (off / 128) ((UInt8.ofNat (off &&& 0x7f) ||| 0x80) :: bytes) := by
  rw [ofsEncodeLoop, if_pos (Nat.succ_pos off), Nat.add_sub_cancel, Nat.shiftRight_eq_div_pow]

theorem high_toNat (val : Nat) : (UInt8.ofNat (val &&& 0x7f) ||| 0x80).toNat = val % 128 + 128 := by
  rw [Byte.or_80_toNat _ (by rw [low_toNat]; omega), low_toNat]

theorem isVarint_ofsEncodeLoop (off : Nat) {bytes : Bytes} (h : IsVarint bytes) :
    IsVarint (ofsEncodeLoop off bytes) := by
  induction off using Nat.strong_induction_on generalizing bytes with
  | _ off ih =>
    cases off with
    | zero => rwa [ofsEncodeLoop_zero]
    | succ off =>
      rw [ofsEncodeLoop_succ]
      refine ih _ (by omega) ?_
      rw [isVarint_cons h.ne_nil, high_toNat]
      exact ⟨by omega, h⟩

theorem isVarint_ofsEncode (offset : Nat) : IsVarint (ofsEncode offset) := by
  refine isVarint_ofsEncodeLoop _ ?_
  rw [isVarint_singleton, low_toNat]
  omega

/-- The groups in front stand for one less than what is left to write. -/
theorem ofsValue_ofsEncodeLoop (off : Nat) (b : UInt8) (bs : Bytes) :
    ofsValue (ofsEncodeLoop off (b :: bs)) = ofsFold (off * 128 + b.toNat % 128) bs := by
  induction off using Nat.strong_induction_on generalizing b bs with
  | _ off ih =>
    cases off with
    | zero => rw [ofsEncodeLoop_zero, ofsValue, Nat.zero_mul, Nat.zero_add]
    | succ off =>
      have hoff : off / 128 * 128 + (off % 128 + 128) % 128 = off := by omega
      rw [ofsEncodeLoop_succ, ih _ (by omega), high_toNat, hoff, ofsFold_cons]

theorem ofsValue_ofsEncode (offset : Nat) : ofsValue (ofsEncode offset) = offset := by
  rw [ofsEncode, ofsValue_ofsEncodeLoop, low_toNat, ofsFold_nil, Nat.shiftRight_eq_div_pow]
  omega

theorem ofsEncodeLoop_length_le (k : Nat) {off : Nat} (h : off < 128 ^ k) (bytes : Bytes) :
    (ofsEncodeLoop off bytes).length ≤ bytes.length + k := by
  induction k generalizing off bytes with
  | zero =>
    obtain rfl : off = 0 := by simpa using h
    rw [ofsEncodeLoop_zero]
    exact le_rfl
  | succ k ih =>
    cases off with
    | zero =>
      rw [ofsEncodeLoop_zero]
      exact Nat.le_add_right _ _
    | succ off =>
      have hdiv : off / 128 < 128 ^ k := by
        rw [Nat.div_lt_iff_lt_mul (by decide), ← pow_succ]
        omega
      rw [ofsEncodeLoop_succ]
      refine (ih hdiv _).trans ?_
      rw [List.length_cons]
      omega

theorem ofsEncode_length_le (k : Nat) {offset : Nat} (h : offset < 128 ^ (k + 1)) :
    (ofsEncode offset).length ≤ k + 1 := by
  have hdiv : offset >>> 7 < 128 ^ k := by
    rw [Nat.shiftRight_eq_div_pow, Nat.div_lt_iff_lt_mul (by decide)]
    rwa [pow_succ] at h
  have := ofsEncodeLoop_length_le k hdiv [UInt8.ofNat (offset &&& 0x7f)]
  rw [List.length_singleton] at this
  rw [ofsEncode]
  omega

theorem IsVarint.eq_concat {bs : Bytes} (h : IsVarint bs) :
    ∃ front last, bs = front ++ [last] ∧ AllHigh front ∧ last.toNat < 128 := by
  induction bs with
  | nil => exact h.elim
  | cons b bs ih =>
    rcases eq_or_ne bs [] with rfl | hne
    · exact ⟨[], b, rfl, fun b hb => absurd hb List.not_mem_nil, h⟩
    · obtain ⟨hb, hbs⟩ := (isVarint_cons hne).mp h
      obtain ⟨front, last, rfl, hfront, hlast⟩ := ih hbs
      exact ⟨b :: front, last, rfl, List.forall_mem_cons.mpr ⟨hb, hfront⟩, hlast⟩

def ofsLeft (front : Bytes) : Nat := front.foldl (fun v b => v * 128 + b.toNat % 128 + 1) 0

theorem ofsLeft_concat (front : Bytes) (b : UInt8) :
    ofsLeft (front ++ [b]) = ofsLeft front * 128 + b.toNat % 128 + 1 := by
  rw [ofsLeft, List.foldl_append]
  rfl

theorem ofsFold_succ (v : Nat) (bs : Bytes) :
    ofsFold v bs + 1 = bs.foldl (fun v b => v * 128 + b.toNat % 128 + 1) (v + 1) := by
  induction bs generalizing v with
  | nil => rfl
  | cons b bs ih => rw [ofsFold_cons, ih, List.foldl_cons]

theorem ofsValue_concat (front : Bytes) (last : UInt8) :
    ofsValue (front ++ [last]) = ofsLeft front * 128 + last.toNat % 128 := by
  cases front with
  | nil => simp [ofsValue, ofsLeft]
  | cons b front =>
    rw [List.cons_append, ofsValue, ofsFold_append, ofsFold_cons, ofsFold_nil, ofsFold_succ,
      ofsLeft, List.foldl_cons, Nat.zero_mul, Nat.zero_add]

theorem ofsEncodeLoop_ofsLeft {front : Bytes} (h : AllHigh front) (bytes : Bytes) :
    ofsEncodeLoop (ofsLeft front) bytes = front ++ bytes := by
  induction front using List.reverseRecOn generalizing bytes with
  | nil => exact ofsEncodeLoop_zero bytes
  | append_singleton front b ih =>
    have hb : 128 ≤ b.toNat := h b (List.mem_append_right _ (List.mem_singleton_self b))
    have hbyte : UInt8.ofNat ((ofsLeft front * 128 + b.toNat % 128) &&& 0x7f) ||| 0x80 = b := by
      apply UInt8.toNat_inj.mp
      rw [high_toNat]
      have hlt := b.toNat_lt
      omega
    have hdiv : (ofsLeft front * 128 + b.toNat % 128) / 128 = ofsLeft front := by omega
    rw [ofsLeft_concat, ofsEncodeLoop_succ, hbyte, hdiv,
      ih fun c hc => h c (List.mem_append_left _ hc), List.append_assoc]
    rfl

/-- The bias leaves no number two encodings. -/
theorem ofsEncode_ofsValue {bs : Bytes} (h : IsVarint bs) : ofsEncode (ofsValue bs) = bs := by
  obtain ⟨front, last, rfl, hfront, hlast⟩ := h.eq_concat
  have hlow : UInt8.ofNat ((ofsLeft front * 128 + last.toNat % 128) &&& 0x7f) = last := by
    apply UInt8.toNat_inj.mp
    rw [low_toNat]
    omega
  have hdiv : (ofsLeft front * 128 + last.toNat % 128) >>> 7 = ofsLeft front := by
    rw [Nat.shiftRight_eq_div_pow]
    omega
  rw [ofsValue_concat, ofsEncode, hlow, hdiv, ofsEncodeLoop_ofsLeft hfront]

end Lib.Varint
