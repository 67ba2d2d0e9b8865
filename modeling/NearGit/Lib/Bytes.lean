import Mathlib.Data.Nat.Bitwise
import Mathlib.Data.List.Basic
import Mathlib.Tactic.Ring

/-! Byte strings, and the masks and shifts on bytes as arithmetic on their values. -/

namespace Lib

abbrev Bytes := List UInt8

namespace Byte

theorem and_7f_toNat (b : UInt8) : (b &&& 0x7f).toNat = b.toNat % 128 := by
  rw [UInt8.toNat_and]
  exact Nat.and_two_pow_sub_one_eq_mod b.toNat 7

theorem and_0f_toNat (b : UInt8) : (b &&& 0x0f).toNat = b.toNat % 16 := by
  rw [UInt8.toNat_and]
  exact Nat.and_two_pow_sub_one_eq_mod b.toNat 4

theorem and_07_toNat (b : UInt8) : (b &&& 0x07).toNat = b.toNat % 8 := by
  rw [UInt8.toNat_and]
  exact Nat.and_two_pow_sub_one_eq_mod b.toNat 3

theorem and_bit_eq_zero_iff (b : UInt8) {i : Nat} (hi : i < 8) :
    b &&& UInt8.ofNat (2 ^ i) = 0 ↔ b.toNat.testBit i = false := by
  have hlt : 2 ^ i < 256 := by
    calc 2 ^ i < 2 ^ 8 := Nat.pow_lt_pow_right (by decide) hi
      _ = 256 := by decide
  rw [← UInt8.toNat_inj, UInt8.toNat_and, UInt8.toNat_ofNat', Nat.mod_eq_of_lt hlt]
  constructor
  · intro h
    have hbit := congrArg (fun n => n.testBit i) h
    simpa [Nat.testBit_and] using hbit
  · intro h
    apply Nat.eq_of_testBit_eq
    intro j
    rcases eq_or_ne j i with rfl | hj
    · simp [h]
    · simp [hj.symm]

theorem and_80_eq_zero_iff (b : UInt8) : b &&& 0x80 = 0 ↔ b.toNat < 128 := by
  rw [show (0x80 : UInt8) = UInt8.ofNat (2 ^ 7) from rfl, and_bit_eq_zero_iff b (by decide)]
  rw [Nat.testBit_eq_decide_div_mod_eq, decide_eq_false_iff_not]
  have := b.toNat_lt
  omega

theorem and_80_ne_zero_iff (b : UInt8) : b &&& 0x80 ≠ 0 ↔ 128 ≤ b.toNat := by
  rw [ne_eq, and_80_eq_zero_iff, not_lt]

theorem or_80_toNat (b : UInt8) (hb : b.toNat < 128) : (b ||| 0x80).toNat = b.toNat + 128 := by
  rw [UInt8.toNat_or]
  have h := Nat.two_pow_add_eq_or_of_lt (i := 7) hb 1
  rw [Nat.or_comm]
  simpa [Nat.add_comm] using h.symm

theorem shiftRight_4_toNat (b : UInt8) : (b >>> 4).toNat = b.toNat / 16 := by
  rw [UInt8.toNat_shiftRight]
  exact Nat.shiftRight_eq_div_pow b.toNat 4

end Byte

theorem or_shiftLeft_eq_add {a : Nat} (b : Nat) {i : Nat} (ha : a < 2 ^ i) :
    a ||| b <<< i = a + b * 2 ^ i := by
  rw [Nat.or_comm, Nat.shiftLeft_eq, Nat.mul_comm, ← Nat.two_pow_add_eq_or_of_lt ha, Nat.add_comm]

def be32 (n : Nat) : Bytes :=
  [UInt8.ofNat (n >>> 24), UInt8.ofNat (n >>> 16), UInt8.ofNat (n >>> 8), UInt8.ofNat n]

def fromBe32 (a b c d : UInt8) : Nat :=
  a.toNat * 2 ^ 24 + b.toNat * 2 ^ 16 + c.toNat * 2 ^ 8 + d.toNat

@[simp] theorem be32_length (n : Nat) : (be32 n).length = 4 := rfl

theorem fromBe32_be32 {n : Nat} (hn : n < 2 ^ 32) :
    fromBe32 (UInt8.ofNat (n >>> 24)) (UInt8.ofNat (n >>> 16)) (UInt8.ofNat (n >>> 8))
      (UInt8.ofNat n) = n := by
  simp only [fromBe32, UInt8.toNat_ofNat', Nat.shiftRight_eq_div_pow]
  omega

theorem be32_fromBe32 (a b c d : UInt8) : be32 (fromBe32 a b c d) = [a, b, c, d] := by
  have ha := a.toNat_lt
  have hb := b.toNat_lt
  have hc := c.toNat_lt
  have hd := d.toNat_lt
  simp only [be32, fromBe32, Nat.shiftRight_eq_div_pow, List.cons.injEq, and_true,
    ← UInt8.toNat_inj, UInt8.toNat_ofNat']
  omega

theorem fromBe32_lt (a b c d : UInt8) : fromBe32 a b c d < 2 ^ 32 := by
  have ha := a.toNat_lt
  have hb := b.toNat_lt
  have hc := c.toNat_lt
  have hd := d.toNat_lt
  unfold fromBe32
  omega

/-- A `HashMap<K, Vec<V>>` filled by `entry(key).or_default().push(value)`: under each key
the values that were pushed there, in order. -/
def group {α κ : Type*} [DecidableEq κ] (key : α → κ) (items : List α) (k : κ) : List α :=
  items.filter fun a => key a = k

theorem mem_group {α κ : Type*} [DecidableEq κ] {key : α → κ} {items : List α} {k : κ} {a : α} :
    a ∈ group key items k ↔ a ∈ items ∧ key a = k := by
  simp [group]

end Lib
