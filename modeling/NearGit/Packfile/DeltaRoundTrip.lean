import NearGit.Packfile.Delta

/-! Applying a computed delta gives the target back. The invariant of the main loop is that
the instructions emitted so far copy out the consumed part of the target, less the pending
literals. -/

namespace NearGit.Packfile
open Lib

/-! ## Size headers -/

theorem readDeltaSize_encodeSize {val : Nat} (hval : val < 2 ^ 64) (rest : Bytes) :
    readDeltaSize (encodeSize val ++ rest) = .ok (val, (encodeSize val).length) := by
  have hlen : (Varint.encode val).length ≤ 10 :=
    Varint.encode_length_le 9 (hval.trans (by decide))
  rw [readDeltaSize, encodeSize, Varint.read_append _ (Varint.isVarint_encode val) rest 0
    (by decide) (by omega), Varint.leValue_encode, pow_zero, mul_one, Nat.zero_add, Nat.zero_add,
    Nat.mod_eq_of_lt hval]

/-! ## Copy instructions -/

def present (byte : UInt8) : Bytes := if byte = 0 then [] else [byte]

def flag (there : Bool) (bit : UInt8) : UInt8 := if there then bit else 0

def byteAt (value i : Nat) : UInt8 := UInt8.ofNat ((value >>> (i * 8)) &&& 0xff)

theorem byteAt_toNat (value i : Nat) : (byteAt value i).toNat = value / 2 ^ (i * 8) % 256 := by
  rw [byteAt, UInt8.toNat_ofNat', Nat.shiftRight_eq_div_pow,
    show 0xff = 2 ^ 8 - 1 from rfl, Nat.and_two_pow_sub_one_eq_mod]
  omega

theorem emitOperands_succ (value firstBit count : Nat) (cmd : UInt8) (data : Bytes) :
    emitOperands value firstBit (count + 1) (cmd, data) =
      (let acc := emitOperands value firstBit count (cmd, data)
       (acc.1 ||| flag (byteAt value count != 0) (1 <<< UInt8.ofNat (firstBit + count)),
         acc.2 ++ present (byteAt value count))) := by
  simp only [emitOperands, List.range_succ, List.foldl_append, List.foldl_cons, List.foldl_nil]
  rw [← byteAt]
  by_cases h : byteAt value count = 0 <;> simp [h, flag, present]

theorem emitOperands_zero (value firstBit : Nat) (acc : UInt8 × Bytes) :
    emitOperands value firstBit 0 acc = acc := rfl

def encSize (size : Nat) : Nat := if size = 0x10000 then 0 else size

def copyCommand (b₀ b₁ b₂ b₃ s₀ s₁ s₂ : Bool) : UInt8 :=
  0x80 ||| flag b₀ 0x01 ||| flag b₁ 0x02 ||| flag b₂ 0x04 ||| flag b₃ 0x08 |||
    flag s₀ 0x10 ||| flag s₁ 0x20 ||| flag s₂ 0x40

theorem copyCommand_bits : ∀ b₀ b₁ b₂ b₃ s₀ s₁ s₂ : Bool,
    let cmd := copyCommand b₀ b₁ b₂ b₃ s₀ s₁ s₂
    cmd &&& 0x80 ≠ 0 ∧ (cmd &&& 0x01 ≠ 0 ↔ b₀) ∧ (cmd &&& 0x02 ≠ 0 ↔ b₁) ∧
      (cmd &&& 0x04 ≠ 0 ↔ b₂) ∧ (cmd &&& 0x08 ≠ 0 ↔ b₃) ∧ (cmd &&& 0x10 ≠ 0 ↔ s₀) ∧
      (cmd &&& 0x20 ≠ 0 ↔ s₁) ∧ (cmd &&& 0x40 ≠ 0 ↔ s₂) := by
  decide

def copyOperands (offset size : Nat) : Bytes :=
  present (byteAt offset 0) ++ present (byteAt offset 1) ++ present (byteAt offset 2) ++
    present (byteAt offset 3) ++ present (byteAt (encSize size) 0) ++
    present (byteAt (encSize size) 1) ++ present (byteAt (encSize size) 2)

theorem emitCopy_eq (offset size : Nat) :
    emitCopy offset size =
      copyCommand (byteAt offset 0 != 0) (byteAt offset 1 != 0) (byteAt offset 2 != 0)
        (byteAt offset 3 != 0) (byteAt (encSize size) 0 != 0) (byteAt (encSize size) 1 != 0)
        (byteAt (encSize size) 2 != 0) :: copyOperands offset size := by
  simp only [emitCopy, emitOperands_succ, emitOperands_zero, List.nil_append]
  rfl

theorem mod_or_byteAt (value i : Nat) :
    value % 2 ^ (i * 8) ||| (byteAt value i).toNat <<< (i * 8) = value % 2 ^ ((i + 1) * 8) := by
  rw [or_shiftLeft_eq_add _ (Nat.mod_lt _ (Nat.two_pow_pos _)), byteAt_toNat,
    show (i + 1) * 8 = i * 8 + 8 by ring, pow_add, Nat.mod_mul, Nat.mul_comm (2 ^ (i * 8))]
  rfl

theorem readOperand_byteAt {instruction bit : UInt8} {value i : Nat} (delta : Bytes)
    (h : instruction &&& bit ≠ 0 ↔ (byteAt value i != 0) = true) (before : Bytes)
    (hdelta : before ++ present (byteAt value i) <+: delta) :
    readOperand instruction bit (i * 8) delta (value % 2 ^ (i * 8), before.length) =
      .ok (value % 2 ^ ((i + 1) * 8), (before ++ present (byteAt value i)).length) := by
  obtain ⟨rest, rfl⟩ := hdelta
  rw [bne_iff_ne] at h
  rw [← mod_or_byteAt]
  by_cases hb : byteAt value i = 0
  · have hbit : ¬ instruction &&& bit ≠ 0 := fun hne => h.mp hne hb
    simp only [readOperand, if_neg hbit, hb, present, if_true]
    simp
  · simp only [readOperand, if_pos (h.mpr hb), present, if_neg hb]
    simp

theorem readCopy_copyOperands {offset size : Nat} (hoffset : offset < 2 ^ 32) (hsize : 0 < size)
    (hsize' : size ≤ 0x10000) (rest : Bytes) :
    readCopy (copyCommand (byteAt offset 0 != 0) (byteAt offset 1 != 0) (byteAt offset 2 != 0)
        (byteAt offset 3 != 0) (byteAt (encSize size) 0 != 0) (byteAt (encSize size) 1 != 0)
        (byteAt (encSize size) 2 != 0)) (copyOperands offset size ++ rest) =
      .ok (offset, size, (copyOperands offset size).length) := by
  obtain ⟨-, h₀, h₁, h₂, h₃, k₀, k₁, k₂⟩ := copyCommand_bits (byteAt offset 0 != 0)
    (byteAt offset 1 != 0) (byteAt offset 2 != 0) (byteAt offset 3 != 0)
    (byteAt (encSize size) 0 != 0) (byteAt (encSize size) 1 != 0) (byteAt (encSize size) 2 != 0)
  set cmd := copyCommand (byteAt offset 0 != 0) (byteAt offset 1 != 0) (byteAt offset 2 != 0)
    (byteAt offset 3 != 0) (byteAt (encSize size) 0 != 0) (byteAt (encSize size) 1 != 0)
    (byteAt (encSize size) 2 != 0)
  have henc : encSize size < 2 ^ 24 := by
    unfold encSize
    split_ifs <;> omega
  have hback : (if encSize size = 0 then 0x10000 else encSize size) = size := by
    unfold encSize
    split_ifs <;> omega
  set p := fun i => present (byteAt offset i) with hp
  set q := fun i => present (byteAt (encSize size) i) with hq
  have hops : copyOperands offset size = p 0 ++ p 1 ++ p 2 ++ p 3 ++ q 0 ++ q 1 ++ q 2 := rfl
  generalize hdelta : copyOperands offset size ++ rest = delta
  -- each operand is read behind the ones before it
  have r₀ := readOperand_byteAt delta h₀ [] (by simp [← hdelta, hops, hp])
  have r₁ := readOperand_byteAt delta h₁ (p 0) (by simp [← hdelta, hops, hp])
  have r₂ := readOperand_byteAt delta h₂ (p 0 ++ p 1) (by simp [← hdelta, hops, hp])
  have r₃ := readOperand_byteAt delta h₃ (p 0 ++ p 1 ++ p 2) (by
    simp [← hdelta, hops, hp])
  have s₀ := readOperand_byteAt delta k₀ (p 0 ++ p 1 ++ p 2 ++ p 3) (by
    simp [← hdelta, hops, hq])
  have s₁ := readOperand_byteAt delta k₁ (p 0 ++ p 1 ++ p 2 ++ p 3 ++ q 0) (by
    simp [← hdelta, hops, hq])
  have s₂ := readOperand_byteAt delta k₂ (p 0 ++ p 1 ++ p 2 ++ p 3 ++ q 0 ++ q 1) (by
    simp [← hdelta, hops, hq])
  rw [Nat.mod_eq_of_lt (b := 2 ^ ((3 + 1) * 8)) hoffset] at r₃
  rw [Nat.mod_eq_of_lt (b := 2 ^ ((2 + 1) * 8)) henc] at s₂
  rw [Nat.zero_mul, pow_zero, Nat.mod_one] at r₀ s₀
  change readOperand cmd 0x01 0 delta (0, 0) = _ at r₀
  simp only [readCopy, r₀, Outcome.ok_bind]
  rw [List.nil_append, r₁, Outcome.ok_bind, r₂, Outcome.ok_bind, r₃, Outcome.ok_bind, s₀,
    Outcome.ok_bind, s₁, Outcome.ok_bind, s₂, Outcome.ok_bind, hback]
  rfl

/-! ## Instruction streams -/

/-- Run from any point where there is room, the instructions append a fixed output to the
target. -/
def Emits (W : Usize) (base instructions out : Bytes) : Prop :=
  ∀ (rest : Bytes) (target : VecU8), target.bytes.length + out.length ≤ target.capacity →
    applyLoop W base (instructions ++ rest) target =
      applyLoop W base rest { target with bytes := target.bytes ++ out }

section Emits
variable {W : Usize}

theorem Emits.nil (W : Usize) (base : Bytes) : Emits W base [] [] := by
  intro rest target _
  simp

theorem Emits.append {base xs ys xout yout : Bytes} (hx : Emits W base xs xout)
    (hy : Emits W base ys yout) : Emits W base (xs ++ ys) (xout ++ yout) := by
  intro rest target hroom
  rw [List.length_append] at hroom
  rw [List.append_assoc, hx _ _ (by omega), hy, List.append_assoc]
  simp only [List.length_append]
  omega

theorem emits_emitCopy {base : Bytes} {offset size : Nat} (hbase : base.length < 2 ^ 32)
    (hsize : 0 < size) (hsize' : size ≤ 0x10000) (hbound : offset + size ≤ base.length) :
    Emits W base (emitCopy offset size) ((base.drop offset).take size) := by
  intro rest target hroom
  have hstop : offset + size < 2 ^ W.bits :=
    (hbound.trans_lt hbase).trans_le (Nat.pow_le_pow_right (by decide) Usize.le_bits.1)
  rw [emitCopy_eq, List.cons_append, applyLoop, if_pos (copyCommand_bits ..).1,
    readCopy_copyOperands (by omega) hsize hsize', Outcome.ok_bind]
  simp only [Usize.add_of_lt hstop, Outcome.ok_bind, if_neg (not_lt.mpr hbound), List.drop_left]
  rw [VecU8.extendFromSlice_of_le hroom, Outcome.ok_bind]

theorem emits_emitCopies {base : Bytes} {bestOffset bestLen : Nat} (hbase : base.length < 2 ^ 32)
    (hbound : bestOffset + bestLen ≤ base.length) {copied : Nat} (hcopied : copied ≤ bestLen) :
    Emits W base (emitCopies bestOffset bestLen copied)
      ((base.drop (bestOffset + copied)).take (bestLen - copied)) := by
  induction hn : bestLen - copied using Nat.strong_induction_on generalizing copied with
  | _ n ih =>
    subst hn
    rw [emitCopies]
    split_ifs with h
    · set chunk := min (bestLen - copied) 0x10000 with hchunk
      have hcopy : Emits W base (emitCopy (bestOffset + copied) chunk)
          ((base.drop (bestOffset + copied)).take chunk) :=
        emits_emitCopy hbase (by omega) (by omega) (by omega)
      have hrest := ih (bestLen - (copied + chunk)) (by omega) (show copied + chunk ≤ bestLen by omega) rfl
      have hout : (base.drop (bestOffset + copied)).take (bestLen - copied) =
          (base.drop (bestOffset + copied)).take chunk ++
            (base.drop (bestOffset + (copied + chunk))).take (bestLen - (copied + chunk)) := by
        rw [show bestLen - copied = chunk + (bestLen - (copied + chunk)) by omega, List.take_add,
          List.drop_drop, Nat.add_assoc]
      rw [hout]
      exact hcopy.append hrest
    · rw [show bestLen - copied = 0 by omega, List.take_zero]
      exact Emits.nil W base

theorem emits_flushInserts (base insertBuf : Bytes) :
    Emits W base (flushInserts insertBuf) insertBuf := by
  induction hn : insertBuf.length using Nat.strong_induction_on generalizing insertBuf with
  | _ n ih =>
    subst hn
    rw [flushInserts]
    split_ifs with h
    · have hpos := List.length_pos_of_ne_nil h
      set count := min insertBuf.length 127 with hcount
      have hinsert : Emits W base (UInt8.ofNat count :: insertBuf.take count)
          (insertBuf.take count) := by
        intro rest target hroom
        have htoNat : (UInt8.ofNat count).toNat = count := by
          rw [UInt8.toNat_ofNat']
          omega
        have hne : UInt8.ofNat count ≠ 0 := by
          rw [ne_eq, ← UInt8.toNat_inj, htoNat]
          exact (show 0 < count by omega).ne'
        have hlen : (insertBuf.take count).length = count := by
          rw [List.length_take]
          omega
        have hhigh : ¬ UInt8.ofNat count &&& 0x80 ≠ 0 := by
          rw [Byte.and_80_ne_zero_iff, htoNat]
          omega
        rw [List.cons_append, applyLoop, if_neg hhigh, if_pos hne]
        simp only [htoNat, List.length_append, hlen]
        rw [if_neg (by omega), List.take_left' hlen, List.drop_left' hlen,
          VecU8.extendFromSlice_of_le hroom, Outcome.ok_bind]
      have hrest := ih (insertBuf.drop count).length (by
        rw [List.length_drop]
        omega) (insertBuf.drop count) rfl
      simpa using hinsert.append hrest
    · rw [not_not.mp h]
      exact Emits.nil W base

/-! ## The main loop -/

theorem matchLen_spec (as bs : Bytes) :
    matchLen as bs ≤ as.length ∧ matchLen as bs ≤ bs.length ∧
      as.take (matchLen as bs) = bs.take (matchLen as bs) := by
  induction as generalizing bs with
  | nil => simp [matchLen]
  | cons a as ih =>
    cases bs with
    | nil => simp [matchLen]
    | cons b bs =>
      rw [matchLen]
      split_ifs with h
      · obtain ⟨ha, hb, htake⟩ := ih bs
        simp [ha, hb, htake, h]
      · simp

def IsMatch (base rest : Bytes) (best : Nat × Nat) : Prop :=
  best.1 + best.2 ≤ base.length ∧ best.2 ≤ rest.length ∧
    (base.drop best.1).take best.2 = rest.take best.2

/-- Whatever the index holds, the match found is one: the bytes are compared. -/
theorem isMatch_bestMatch (base : Bytes) (index : Nat → List Nat) (rest : Bytes) :
    IsMatch base rest (bestMatch base index rest) := by
  have hzero : IsMatch base rest (0, 0) := by simp [IsMatch]
  unfold bestMatch
  split_ifs
  · refine List.foldlRecOn _ _ hzero ?_
    rintro ⟨bestOffset, bestLen⟩ hbest baseOff -
    obtain ⟨hrest, hbase, htake⟩ := matchLen_spec rest (base.drop baseOff)
    simp only
    split_ifs with hlt
    · rw [List.length_drop] at hbase
      exact ⟨by simp only; omega, hrest, htake.symm⟩
    · exact hbest
  · exact hzero

/-- Given instructions for the consumed part less the pending literals, the loop completes
them to instructions for the whole target. -/
theorem emits_deltaLoop {base : Bytes} (hbase : base.length < 2 ^ 32) (index : Nat → List Nat)
    (header rest : Bytes) :
    ∀ {result out : Bytes} (insertBuf : Bytes), Emits W base result out →
      ∃ instructions, deltaLoop base index rest (header ++ result) insertBuf =
          header ++ instructions ∧
        Emits W base instructions (out ++ insertBuf ++ rest) := by
  induction hn : rest.length using Nat.strong_induction_on generalizing rest with
  | _ n ih =>
    subst hn
    intro result out insertBuf hresult
    cases rest with
    | nil =>
      refine ⟨result ++ flushInserts insertBuf, by rw [deltaLoop, List.append_assoc], ?_⟩
      rw [List.append_nil]
      exact hresult.append (emits_flushInserts base insertBuf)
    | cons byte tail =>
      rw [deltaLoop]
      obtain ⟨hin, hlen, hbytes⟩ := isMatch_bestMatch base index (byte :: tail)
      set best := bestMatch base index (byte :: tail)
      split_ifs with hbest
      · -- the pending bytes go out first, then the match
        have hcopies := emits_emitCopies (W := W) hbase hin (Nat.zero_le best.2)
        rw [Nat.add_zero, Nat.sub_zero, hbytes] at hcopies
        have hemits := (hresult.append (emits_flushInserts base insertBuf)).append hcopies
        have hshort : ((byte :: tail).drop best.2).length < (byte :: tail).length := by
          have hpos : 0 < best.2 := lt_of_lt_of_le (by decide) hbest
          rw [List.length_drop]
          omega
        obtain ⟨instructions, heq, hinstr⟩ := ih _ hshort _ rfl [] hemits
        refine ⟨instructions, by simpa [List.append_assoc] using heq, ?_⟩
        simpa [List.append_assoc] using hinstr
      · obtain ⟨instructions, heq, hinstr⟩ := ih tail.length (by simp) tail rfl (insertBuf ++ [byte])
          hresult
        exact ⟨instructions, heq, by simpa [List.append_assoc] using hinstr⟩

theorem applyDelta_computeDelta {base target : Bytes} (hbase : base.length < 2 ^ 32)
    (htarget : target.length ≤ W.isizeMax) :
    applyDelta W base (computeDelta base target) = .ok target := by
  obtain ⟨instructions, heq, hinstr⟩ := emits_deltaLoop hbase (buildIndex base)
    (encodeSize base.length ++ encodeSize target.length) target [] (Emits.nil W base)
  have hbase' : base.length < 2 ^ 64 := hbase.trans (by decide)
  have htarget' : target.length < 2 ^ 64 := htarget.trans_lt Usize.isizeMax_lt_64
  have hloop : applyLoop W base instructions { bytes := [], capacity := target.length } =
      .ok { bytes := target, capacity := target.length } := by
    have h := hinstr [] { bytes := [], capacity := target.length } (by simp)
    rw [List.append_nil] at h
    rw [h, applyLoop]
    simp
  rw [computeDelta, ← List.append_nil (encodeSize _ ++ encodeSize _), heq, List.append_assoc,
    applyDelta, readDeltaSize_encodeSize hbase', Outcome.ok_bind]
  simp only [List.drop_left]
  rw [readDeltaSize_encodeSize htarget', Outcome.ok_bind]
  simp only [List.drop_left, Usize.cast_of_le htarget]
  rw [VecU8.withCapacity_of_le htarget, Outcome.ok_bind, hloop, Outcome.ok_bind,
    if_neg (not_not.mpr rfl)]

end Emits

end NearGit.Packfile
