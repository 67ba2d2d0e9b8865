import NearGit.Packfile.DeltaRoundTrip
import Mathlib.Data.List.Count

/-! The delta format by itself: size varints and instructions, what they give over a source, and
the deltas on which `apply_delta` panics. -/

namespace NearGit.Packfile
open Lib

/-! ## Instructions -/

/-- How many operand bytes of a copy stand in front of that of bit `i`. -/
def operandCount (op : UInt8) (i : Nat) : Nat := (List.range i).countP fun j => op.toNat.testBit j

def operandAt (op : UInt8) (operands : Bytes) (i : Nat) : Nat :=
  if op.toNat.testBit i then (operands.getD (operandCount op i) 0).toNat else 0

def copyOffset (op : UInt8) (operands : Bytes) : Nat :=
  operandAt op operands 0 + operandAt op operands 1 * 2 ^ 8 + operandAt op operands 2 * 2 ^ 16 +
    operandAt op operands 3 * 2 ^ 24

def copySize (op : UInt8) (operands : Bytes) : Nat :=
  let size := operandAt op operands 4 + operandAt op operands 5 * 2 ^ 8 +
    operandAt op operands 6 * 2 ^ 16
  if size = 0 then 0x10000 else size

def copyEnd (op : UInt8) (operands : Bytes) : Nat := copyOffset op operands + copySize op operands

inductive Instructs (W : Usize) (source : Bytes) : (delta : Bytes) → (pieces : List Bytes) → Prop
  | done : Instructs W source [] []
  | copy {op : UInt8} {operands rest : Bytes} {pieces : List Bytes} :
      128 ≤ op.toNat → operands.length = operandCount op 7 → copyEnd op operands < 2 ^ W.bits →
      copyEnd op operands ≤ source.length → Instructs W source rest pieces →
      Instructs W source (op :: (operands ++ rest))
        ((source.drop (copyOffset op operands)).take (copySize op operands) :: pieces)
  | insert {op : UInt8} {literals rest : Bytes} {pieces : List Bytes} :
      0 < op.toNat → op.toNat < 128 → literals.length = op.toNat →
      Instructs W source rest pieces →
      Instructs W source (op :: (literals ++ rest)) (literals :: pieces)

inductive PanickingCopy (W : Usize) : (delta : Bytes) → Prop
  | cut {op : UInt8} {after : Bytes} : 128 ≤ op.toNat → after.length < operandCount op 7 →
      PanickingCopy W (op :: after)
  | wide {op : UInt8} {operands rest : Bytes} : 128 ≤ op.toNat →
      operands.length = operandCount op 7 → 2 ^ W.bits ≤ copyEnd op operands →
      PanickingCopy W (op :: (operands ++ rest))

theorem operandCount_succ (op : UInt8) (i : Nat) :
    operandCount op (i + 1) = operandCount op i + if op.toNat.testBit i then 1 else 0 := by
  rw [operandCount, List.range_succ, List.countP_append, List.countP_singleton]
  rfl

theorem operandCount_mono (op : UInt8) {i j : Nat} (h : i ≤ j) :
    operandCount op i ≤ operandCount op j :=
  (List.range_sublist.mpr h).countP_le

theorem operandAt_append {op : UInt8} {operands rest : Bytes}
    (h : operands.length = operandCount op 7) {i : Nat} (hi : i < 7) :
    operandAt op (operands ++ rest) i = operandAt op operands i := by
  unfold operandAt
  split_ifs with hbit
  · have hlt : operandCount op i < operands.length := by
      have hmono := operandCount_mono op (Nat.succ_le_of_lt hi)
      rw [operandCount_succ, if_pos hbit] at hmono
      omega
    rw [List.getD_append _ _ _ _ hlt]
  · rfl

theorem readOperand_bind {op : UInt8} {delta : Bytes} {value i shift : Nat} {β : Type}
    {f : Nat × Nat → Outcome β} {x : Outcome β} (hi : i < 8) (hvalue : value < 2 ^ shift)
    (hpos : operandCount op i ≤ delta.length)
    (hcut : delta.length < operandCount op (i + 1) → x = .panic .indexOutOfBounds)
    (hread : operandCount op (i + 1) ≤ delta.length →
      f (value + operandAt op delta i * 2 ^ shift, operandCount op (i + 1)) = x) :
    readOperand op (UInt8.ofNat (2 ^ i)) shift delta (value, operandCount op i) >>= f = x := by
  rw [operandCount_succ] at hcut hread
  unfold operandAt at hread
  have hzero := Byte.and_bit_eq_zero_iff op hi
  rcases hbit : op.toNat.testBit i with _ | _
  · rw [readOperand, if_neg (not_not.mpr (hzero.mpr hbit)), Outcome.ok_bind]
    simpa [hbit] using hread (by simpa [hbit] using hpos)
  · have hne : op &&& UInt8.ofNat (2 ^ i) ≠ 0 := fun h => by simp [hzero.mp h] at hbit
    rw [hbit, if_pos rfl] at hcut hread
    rw [readOperand, if_pos hne]
    rcases lt_or_ge (operandCount op i) delta.length with hlt | hge
    · rw [if_pos rfl, List.getD_eq_getElem delta 0 hlt] at hread
      rw [List.getElem?_eq_getElem hlt]
      simp only [Outcome.ok_bind]
      rw [or_shiftLeft_eq_add _ hvalue]
      exact hread hlt
    · rw [List.getElem?_eq_none hge]
      exact (hcut (Nat.lt_succ_of_le hge)).symm

theorem operandAt_lt (op : UInt8) (delta : Bytes) (i : Nat) : operandAt op delta i < 256 := by
  unfold operandAt
  split_ifs
  · exact UInt8.toNat_lt _
  · decide

theorem readCopy_eq (op : UInt8) (delta : Bytes) :
    readCopy op delta =
      if operandCount op 7 ≤ delta.length then
        .ok (copyOffset op delta, copySize op delta, operandCount op 7)
      else .panic .indexOutOfBounds := by
  have hcut {i : Nat} (hi : i ≤ 7) (h : delta.length < operandCount op i) :
      (if operandCount op 7 ≤ delta.length then
        Outcome.ok (copyOffset op delta, copySize op delta, operandCount op 7)
      else .panic .indexOutOfBounds) = .panic .indexOutOfBounds :=
    if_neg (not_le.mpr (h.trans_le (operandCount_mono op hi)))
  have hlt (i : Nat) : operandAt op delta i < 256 := operandAt_lt op delta i
  have h₀ := hlt 0
  have h₁ := hlt 1
  have h₂ := hlt 2
  have h₄ := hlt 4
  have h₅ := hlt 5
  unfold readCopy
  refine readOperand_bind (i := 0) (by decide) (by decide) (Nat.zero_le _) (hcut (by decide))
    fun hpos => ?_
  refine readOperand_bind (i := 1) (by decide) (by omega) hpos (hcut (by decide)) fun hpos => ?_
  refine readOperand_bind (i := 2) (by decide) (by omega) hpos (hcut (by decide)) fun hpos => ?_
  refine readOperand_bind (i := 3) (by decide) (by omega) hpos (hcut (by decide)) fun hpos => ?_
  refine readOperand_bind (i := 4) (by decide) (by decide) hpos (hcut (by decide)) fun hpos => ?_
  refine readOperand_bind (i := 5) (by decide) (by omega) hpos (hcut (by decide)) fun hpos => ?_
  refine readOperand_bind (i := 6) (by decide) (by omega) hpos (hcut (by decide)) fun hpos => ?_
  rw [if_pos hpos]
  simp [copyOffset, copySize]

theorem readCopy_append {op : UInt8} {operands : Bytes} (h : operands.length = operandCount op 7)
    (rest : Bytes) : readCopy op (operands ++ rest) =
      .ok (copyOffset op operands, copySize op operands, operands.length) := by
  rw [readCopy_eq, if_pos (by simp [h]), h]
  simp [copyOffset, copySize, operandAt_append h]

/-! ## The loop of `apply_delta` -/

theorem copy_bits {op : UInt8} (h : 128 ≤ op.toNat) : op &&& 0x80 ≠ 0 :=
  (Byte.and_80_ne_zero_iff op).mpr h

theorem insert_bits {op : UInt8} (h : 0 < op.toNat) (h' : op.toNat < 128) :
    ¬ op &&& 0x80 ≠ 0 ∧ op ≠ 0 := by
  refine ⟨not_not.mpr ((Byte.and_80_eq_zero_iff op).mpr h'), ?_⟩
  rintro rfl
  exact absurd h (by decide)

section Loop
variable {W : Usize} {source delta rest : Bytes} {pieces : List Bytes}

theorem applyLoop_copy {op : UInt8} {operands : Bytes} (hop : 128 ≤ op.toNat)
    (hlen : operands.length = operandCount op 7) (hend : copyEnd op operands < 2 ^ W.bits)
    (hbound : copyEnd op operands ≤ source.length) (rest : Bytes) (target : VecU8) :
    applyLoop W source (op :: (operands ++ rest)) target =
      target.extendFromSlice W
          ((source.drop (copyOffset op operands)).take (copySize op operands)) >>=
        applyLoop W source rest := by
  have hin : ¬ copyOffset op operands + copySize op operands > source.length := not_lt.mpr hbound
  rw [applyLoop, if_pos (copy_bits hop), readCopy_append hlen, Outcome.ok_bind]
  simp only
  rw [Usize.add_of_lt hend, Outcome.ok_bind, if_neg hin, List.drop_left]

theorem applyLoop_insert {op : UInt8} {literals : Bytes} (hpos : 0 < op.toNat)
    (hlt : op.toNat < 128) (hlen : literals.length = op.toNat) (rest : Bytes) (target : VecU8) :
    applyLoop W source (op :: (literals ++ rest)) target =
      target.extendFromSlice W literals >>= applyLoop W source rest := by
  obtain ⟨hhigh, hne⟩ := insert_bits hpos hlt
  rw [applyLoop, if_neg hhigh, if_pos hne, ← hlen]
  simp only
  rw [if_neg (by simp), List.take_left, List.drop_left]

theorem Instructs.applyLoop_eq (h : Instructs W source delta pieces) (rest : Bytes)
    (target : VecU8) : applyLoop W source (delta ++ rest) target =
      pieces.foldlM (VecU8.extendFromSlice W) target >>= applyLoop W source rest := by
  induction h generalizing target with
  | done => rfl
  | copy hop hlen hend hbound _ ih =>
    rw [List.cons_append, List.append_assoc, applyLoop_copy hop hlen hend hbound,
      List.foldlM_cons, bind_assoc]
    exact congrArg _ (funext ih)
  | insert hpos hlt hlen _ ih =>
    rw [List.cons_append, List.append_assoc, applyLoop_insert hpos hlt hlen, List.foldlM_cons,
      bind_assoc]
    exact congrArg _ (funext ih)

theorem PanickingCopy.applyLoop_eq (h : PanickingCopy W delta) (source : Bytes)
    (target : VecU8) : ∃ why, applyLoop W source delta target = .panic why := by
  cases h with
  | cut hop hcut =>
    refine ⟨.indexOutOfBounds, ?_⟩
    rw [applyLoop, if_pos (copy_bits hop), readCopy_eq, if_neg (not_le.mpr hcut)]
    rfl
  | wide hop hlen hwide =>
    refine ⟨.addOverflow, ?_⟩
    rw [applyLoop, if_pos (copy_bits hop), readCopy_append hlen, Outcome.ok_bind]
    simp only
    rw [Usize.add_of_le hwide, Outcome.panic_bind]

theorem exists_append_of_le {n : Nat} {bs : Bytes} (h : n ≤ bs.length) :
    ∃ front rest, bs = front ++ rest ∧ front.length = n :=
  ⟨bs.take n, bs.drop n, (List.take_append_drop n bs).symm, List.length_take_of_le h⟩

/-- Where the instructions that can be carried out end: there is nothing more, or a copy that
panics, or an instruction with an error. -/
def Settles (W : Usize) (source delta : Bytes) : Prop :=
  ∃ before pieces after, delta = before ++ after ∧ Instructs W source before pieces ∧
    (after = [] ∨ PanickingCopy W after ∨ ∀ target, ∃ e, applyLoop W source after target = .err e)

theorem Settles.here (h : PanickingCopy W delta ∨
    ∀ target, ∃ e, applyLoop W source delta target = .err e) : Settles W source delta :=
  ⟨[], [], delta, rfl, .done, .inr h⟩

theorem Settles.copy {operands : Bytes} {op : UInt8} (hop : 128 ≤ op.toNat)
    (hlen : operands.length = operandCount op 7) (h : Settles W source rest) :
    Settles W source (op :: (operands ++ rest)) := by
  rcases le_or_gt (2 ^ W.bits) (copyEnd op operands) with hwide | hend
  · exact .here (.inl (.wide hop hlen hwide))
  rcases lt_or_ge source.length (copyEnd op operands) with hout | hin
  · have hover : copyOffset op operands + copySize op operands > source.length := hout
    refine .here (.inr fun target => ?_)
    rw [applyLoop, if_pos (copy_bits hop), readCopy_append hlen, Outcome.ok_bind]
    simp only
    rw [Usize.add_of_lt hend, Outcome.ok_bind, if_pos hover]
    exact ⟨_, rfl⟩
  · obtain ⟨before, pieces, after, rfl, hbefore, hafter⟩ := h
    exact ⟨_, _, after, by simp, .copy hop hlen hend hin hbefore, hafter⟩

theorem Settles.insert {literals : Bytes} {op : UInt8} (hpos : 0 < op.toNat)
    (hlt : op.toNat < 128) (hlen : literals.length = op.toNat) (h : Settles W source rest) :
    Settles W source (op :: (literals ++ rest)) := by
  obtain ⟨before, pieces, after, rfl, hbefore, hafter⟩ := h
  exact ⟨_, _, after, by simp, .insert hpos hlt hlen hbefore, hafter⟩

theorem settles (W : Usize) (source delta : Bytes) : Settles W source delta := by
  induction hn : delta.length using Nat.strong_induction_on generalizing delta with
  | _ n ih =>
    subst hn
    rcases delta with _ | ⟨op, delta⟩
    · exact ⟨[], [], [], rfl, .done, .inl rfl⟩
    -- what is behind the operands or the literals is shorter
    have hrest (front rest : Bytes) (hdelta : delta = front ++ rest) : Settles W source rest := by
      refine ih rest.length ?_ rest rfl
      rw [hdelta, List.length_cons, List.length_append]
      omega
    rcases lt_or_ge op.toNat 128 with hop | hop
    · rcases Nat.eq_zero_or_pos op.toNat with hzero | hpos
      · -- the reserved instruction
        obtain rfl : op = 0 := UInt8.toNat_inj.mp hzero
        exact .here (.inr fun target => ⟨_, by rw [applyLoop]; rfl⟩)
      · rcases lt_or_ge delta.length op.toNat with hlt | hge
        · refine .here (.inr fun target => ?_)
          obtain ⟨hhigh, hne⟩ := insert_bits hpos hop
          rw [applyLoop, if_neg hhigh, if_pos hne, if_pos hlt]
          exact ⟨_, rfl⟩
        · obtain ⟨literals, rest, rfl, hlen⟩ := exists_append_of_le hge
          exact (hrest literals rest rfl).insert hpos hop hlen
    · rcases lt_or_ge delta.length (operandCount op 7) with hlt | hge
      · exact .here (.inl (.cut hop hlt))
      · obtain ⟨operands, rest, rfl, hlen⟩ := exists_append_of_le hge
        exact (hrest operands rest rfl).copy hop hlen

end Loop

/-! ## Deltas -/

/-- A size as `apply_delta` reads it: at most ten bytes, modulo 2^64. -/
def IsDeltaSize (size : Nat) (bs : Bytes) : Prop :=
  Varint.IsVarint bs ∧ bs.length ≤ 10 ∧ Varint.leValue bs % 2 ^ 64 = size

def DeltaStream (W : Usize) (source delta target : Bytes) : Prop :=
  ∃ sourceSize targetSize first second instructions pieces,
    delta = first ++ (second ++ instructions) ∧ IsDeltaSize sourceSize first ∧
    IsDeltaSize targetSize second ∧ W.cast targetSize = target.length ∧
    Instructs W source instructions pieces ∧ target = pieces.flatten

/-- `delta`, over `source`, stands for `target`; the size of the source is not looked at. -/
def DeltaMeans (W : Usize) (source delta target : Bytes) : Prop :=
  DeltaStream W source delta target ∧ target.length ≤ W.isizeMax

inductive HostileInstructions (W : Usize) (source : Bytes) (targetSize : Nat) :
    (instructions : Bytes) → Prop
  | copy {before after : Bytes} {pieces : List Bytes} : Instructs W source before pieces →
      PanickingCopy W after → HostileInstructions W source targetSize (before ++ after)
  | outgrown {before after : Bytes} {pieces : List Bytes} : Instructs W source before pieces →
      W.growAll 0 (W.cast targetSize) (pieces.map List.length) = none →
      HostileInstructions W source targetSize (before ++ after)

/-- One of the sizes goes on for too long, or the target is declared too large to allocate, or the
instructions are hostile. -/
inductive HostileDelta (W : Usize) (source : Bytes) : (delta : Bytes) → Prop
  | sourceSize {delta : Bytes} : Varint.Overlong 10 delta → HostileDelta W source delta
  | targetSize {sourceSize : Nat} {first rest : Bytes} : IsDeltaSize sourceSize first →
      Varint.Overlong 10 rest → HostileDelta W source (first ++ rest)
  | capacity {sourceSize targetSize : Nat} {first second rest : Bytes} :
      IsDeltaSize sourceSize first → IsDeltaSize targetSize second →
      W.isizeMax < W.cast targetSize → HostileDelta W source (first ++ (second ++ rest))
  | instructions {sourceSize targetSize : Nat} {first second rest : Bytes} :
      IsDeltaSize sourceSize first → IsDeltaSize targetSize second →
      W.cast targetSize ≤ W.isizeMax → HostileInstructions W source targetSize rest →
      HostileDelta W source (first ++ (second ++ rest))

theorem readDeltaSize_append {size : Nat} {bs : Bytes} (h : IsDeltaSize size bs) (rest : Bytes) :
    readDeltaSize (bs ++ rest) = .ok (size, bs.length) := by
  obtain ⟨hvarint, hlen, hvalue⟩ := h
  rw [readDeltaSize, Varint.read_append _ hvarint rest 0 (by decide) (by omega), pow_zero,
    Nat.mul_one, Nat.zero_add, Nat.zero_add, hvalue]

theorem readDeltaSize_overlong {bs : Bytes} (h : Varint.Overlong 10 bs) :
    readDeltaSize bs = .panic .shiftOverflow := Varint.read_overlong _ h (by decide) _ _

theorem isDeltaSize_or (bs : Bytes) :
    (∃ size v rest, bs = v ++ rest ∧ IsDeltaSize size v) ∨ Varint.Overlong 10 bs ∨
      ∃ e, readDeltaSize bs = .err e := by
  rcases Varint.isVarint_or 10 bs with ⟨v, rest, rfl, hv, hlen⟩ | hlong | ⟨hhigh, hlen⟩
  · exact .inl ⟨_, v, rest, rfl, hv, hlen, rfl⟩
  · exact .inr (.inl hlong)
  · exact .inr (.inr ⟨_, Varint.read_allHigh _ hhigh (by omega) _ _⟩)

section Apply
variable {W : Usize} {source delta target first second rest : Bytes}
  {sourceSize targetSize : Nat}

theorem applyDelta_sizes (hfirst : IsDeltaSize sourceSize first)
    (hsecond : IsDeltaSize targetSize second) (rest : Bytes) :
    applyDelta W source (first ++ (second ++ rest)) =
      VecU8.withCapacity W (W.cast targetSize) >>= fun target =>
        applyLoop W source rest target >>= fun target =>
          if target.bytes.length ≠ W.cast targetSize then
            .err s!"delta target size mismatch: expected {targetSize}, got {target.bytes.length}"
          else .ok target.bytes := by
  rw [applyDelta, readDeltaSize_append hfirst, Outcome.ok_bind]
  simp only [List.drop_left]
  rw [readDeltaSize_append hsecond, Outcome.ok_bind]
  simp only [List.drop_left]

theorem HostileInstructions.applyLoop_eq (h : HostileInstructions W source targetSize rest) :
    ∃ why, applyLoop W source rest { bytes := [], capacity := W.cast targetSize } =
      .panic why := by
  cases h with
  | @copy before after pieces hbefore hafter =>
    rw [hbefore.applyLoop_eq]
    rcases hgrow : W.growAll 0 (W.cast targetSize) (pieces.map List.length) with _ | capacity
    · exact ⟨_, by rw [VecU8.extendAll_of_outgrown hgrow, Outcome.panic_bind]⟩
    · rw [VecU8.extendAll_of_grows hgrow, Outcome.ok_bind]
      exact hafter.applyLoop_eq source _
  | outgrown hbefore hgrow =>
    exact ⟨_, by rw [hbefore.applyLoop_eq, VecU8.extendAll_of_outgrown hgrow, Outcome.panic_bind]⟩

theorem HostileDelta.applyDelta_eq (h : HostileDelta W source delta) :
    ∃ why, applyDelta W source delta = .panic why := by
  cases h with
  | sourceSize hlong =>
    exact ⟨_, by rw [applyDelta, readDeltaSize_overlong hlong, Outcome.panic_bind]⟩
  | targetSize hfirst hlong =>
    refine ⟨.shiftOverflow, ?_⟩
    rw [applyDelta, readDeltaSize_append hfirst, Outcome.ok_bind]
    simp only [List.drop_left]
    rw [readDeltaSize_overlong hlong, Outcome.panic_bind]
  | capacity hfirst hsecond hcap =>
    refine ⟨.capacityOverflow, ?_⟩
    rw [applyDelta_sizes hfirst hsecond, VecU8.withCapacity_of_lt hcap, Outcome.panic_bind]
  | instructions hfirst hsecond hcap hhostile =>
    obtain ⟨why, hwhy⟩ := hhostile.applyLoop_eq
    refine ⟨why, ?_⟩
    rw [applyDelta_sizes hfirst hsecond, VecU8.withCapacity_of_le hcap, Outcome.ok_bind, hwhy,
      Outcome.panic_bind]

theorem DeltaMeans.applyDelta_eq (h : DeltaMeans W source delta target) :
    applyDelta W source delta = .ok target := by
  obtain ⟨⟨sourceSize, targetSize, first, second, instructions, pieces, rfl, hfirst, hsecond,
    hsize, hinstr, rfl⟩, hcap⟩ := h
  have hroom : W.growAll 0 pieces.flatten.length (pieces.map List.length) =
      some pieces.flatten.length := by
    refine Usize.growAll_of_le ?_
    rw [List.length_flatten, Nat.zero_add]
  have hrun := hinstr.applyLoop_eq [] { bytes := [], capacity := pieces.flatten.length }
  rw [List.append_nil, VecU8.extendAll_of_grows hroom, Outcome.ok_bind, applyLoop] at hrun
  rw [applyDelta_sizes hfirst hsecond, hsize, VecU8.withCapacity_of_le hcap, Outcome.ok_bind,
    hrun, Outcome.ok_bind]
  simp

theorem deltaMeans_or (W : Usize) (source delta : Bytes) :
    (∃ target, DeltaMeans W source delta target) ∨ HostileDelta W source delta ∨
      ∃ e, applyDelta W source delta = .err e := by
  rcases isDeltaSize_or delta with ⟨sourceSize, first, delta, rfl, hfirst⟩ | hlong | ⟨e, he⟩
  swap
  · exact .inr (.inl (.sourceSize hlong))
  swap
  · exact .inr (.inr ⟨e, by rw [applyDelta, he, Outcome.err_bind]⟩)
  rcases isDeltaSize_or delta with ⟨targetSize, second, rest, rfl, hsecond⟩ | hlong | ⟨e, he⟩
  swap
  · exact .inr (.inl (.targetSize hfirst hlong))
  swap
  · refine .inr (.inr ⟨e, ?_⟩)
    rw [applyDelta, readDeltaSize_append hfirst, Outcome.ok_bind]
    simp only [List.drop_left]
    rw [he, Outcome.err_bind]
  rcases lt_or_ge W.isizeMax (W.cast targetSize) with hcap | hcap
  · exact .inr (.inl (.capacity hfirst hsecond hcap))
  obtain ⟨before, pieces, after, rfl, hbefore, hafter⟩ := settles W source rest
  have hrun : applyDelta W source (first ++ (second ++ (before ++ after))) = _ :=
    applyDelta_sizes hfirst hsecond (before ++ after)
  rw [VecU8.withCapacity_of_le hcap, Outcome.ok_bind, hbefore.applyLoop_eq] at hrun
  rcases hgrow : W.growAll 0 (W.cast targetSize) (pieces.map List.length) with _ | capacity
  · exact .inr (.inl (.instructions hfirst hsecond hcap (.outgrown hbefore hgrow)))
  rw [VecU8.extendAll_of_grows hgrow, Outcome.ok_bind, List.nil_append] at hrun
  rcases hafter with rfl | hpanic | herr
  · rw [applyLoop, Outcome.ok_bind] at hrun
    rcases eq_or_ne (W.cast targetSize) pieces.flatten.length with hsize | hne
    · rw [List.append_nil]
      exact .inl ⟨pieces.flatten, ⟨sourceSize, targetSize, first, second, before, pieces, rfl,
        hfirst, hsecond, hsize, hbefore, rfl⟩, hsize ▸ hcap⟩
    · rw [if_pos hne.symm] at hrun
      exact .inr (.inr ⟨_, hrun⟩)
  · exact .inr (.inl (.instructions hfirst hsecond hcap (.copy hbefore hpanic)))
  · obtain ⟨e, he⟩ := herr { bytes := pieces.flatten, capacity }
    rw [he, Outcome.err_bind] at hrun
    exact .inr (.inr ⟨e, hrun⟩)

theorem applyDelta_eq_ok_iff :
    applyDelta W source delta = .ok target ↔ DeltaMeans W source delta target := by
  refine ⟨fun h => ?_, DeltaMeans.applyDelta_eq⟩
  rcases deltaMeans_or W source delta with ⟨target', hmeans⟩ | hhostile | ⟨e, he⟩
  · rw [hmeans.applyDelta_eq, Outcome.ok.injEq] at h
    exact h ▸ hmeans
  · obtain ⟨why, hwhy⟩ := hhostile.applyDelta_eq
    exact absurd (hwhy.symm.trans h) (by simp)
  · exact absurd (he.symm.trans h) (by simp)

end Apply

/-! ## Which deltas are answered, and which are accepted -/

theorem applyDelta_answers_iff (W : Usize) (source delta : Bytes) :
    ((∃ target, applyDelta W source delta = .ok target) ∨
        ∃ e, applyDelta W source delta = .err e) ↔
      ¬ HostileDelta W source delta := by
  constructor
  · intro hanswer hhostile
    obtain ⟨why, hpanic⟩ := hhostile.applyDelta_eq
    exact (Outcome.answers_iff.mp hanswer).2 why hpanic
  · intro hmild
    rcases deltaMeans_or W source delta with ⟨target, hmeans⟩ | hhostile | herr
    · exact .inl ⟨target, hmeans.applyDelta_eq⟩
    · exact absurd hhostile hmild
    · exact .inr herr

/-- Two empty sizes, and then a copy of which nothing but the opcode is left. -/
theorem applyDelta_cut_panics : ¬ ∃ W : Usize, ∀ source delta : Bytes,
    (∃ target, applyDelta W source delta = .ok target) ∨
      ∃ e, applyDelta W source delta = .err e := by
  rintro ⟨W, htotal⟩
  have hsize : IsDeltaSize 0 [0] := ⟨by decide, by decide, by decide⟩
  have hcap : W.cast 0 ≤ W.isizeMax := by
    rw [Usize.cast, Nat.zero_mod]
    exact Nat.zero_le _
  have hcut : PanickingCopy W [0x81] := .cut (by decide) (by decide)
  have hhostile : HostileDelta W [] [0, 0, 0x81] :=
    .instructions hsize hsize hcap (.copy .done hcut)
  obtain ⟨why, hpanic⟩ := hhostile.applyDelta_eq
  exact (Outcome.answers_iff.mp (htotal [] [0, 0, 0x81])).2 why hpanic

/-- What a `Vec<u8>` can hold. -/
abbrev ByteVec (W : Usize) := { bytes : Bytes // bytes.length ≤ W.isizeMax }

theorem applyDelta_accepts_iff (W : Usize) (source delta : Bytes) (target : ByteVec W) :
    applyDelta W source delta = .ok target.1 ↔ DeltaStream W source delta target.1 :=
  applyDelta_eq_ok_iff.trans (and_iff_left target.2)

end NearGit.Packfile
