import NearGit.Lib.Bytes
import NearGit.Lib.Outcome

/-! The width of `usize`, and the byte vectors of Rust, whose capacity it bounds. -/

namespace Lib

/-- `w32` is that of `wasm32`. -/
inductive Usize
  | w32
  | w64
deriving DecidableEq, Repr

namespace Usize
variable (W : Usize)

def bits : ℕ := match W with
  | w32 => 32
  | w64 => 64

def isizeMax : ℕ := 2 ^ (W.bits - 1) - 1

/-- `as usize`. -/
def cast (n : ℕ) : ℕ := n % 2 ^ W.bits

def add (m n : ℕ) : Outcome ℕ := if m + n < 2 ^ W.bits then .ok (m + n) else .panic .addOverflow

def mul (m n : ℕ) : Outcome ℕ := if m * n < 2 ^ W.bits then .ok (m * n) else .panic .mulOverflow

variable {W}

theorem le_bits : 32 ≤ W.bits ∧ W.bits ≤ 64 := by
  cases W <;> decide

theorem isizeMax_lt : W.isizeMax < 2 ^ W.bits := by
  cases W <;> decide

theorem isizeMax_lt_64 : W.isizeMax < 2 ^ 64 := by
  cases W <;> decide

theorem le_isizeMax : 2 ^ 31 - 1 ≤ W.isizeMax := by
  cases W <;> decide

theorem cast_of_lt {n : ℕ} (h : n < 2 ^ W.bits) : W.cast n = n := Nat.mod_eq_of_lt h

theorem cast_of_le {n : ℕ} (h : n ≤ W.isizeMax) : W.cast n = n :=
  cast_of_lt (h.trans_lt isizeMax_lt)

theorem add_of_lt {m n : ℕ} (h : m + n < 2 ^ W.bits) : W.add m n = .ok (m + n) := if_pos h

theorem add_of_le {m n : ℕ} (h : 2 ^ W.bits ≤ m + n) : W.add m n = .panic .addOverflow :=
  if_neg (not_lt.mpr h)

theorem mul_of_lt {m n : ℕ} (h : m * n < 2 ^ W.bits) : W.mul m n = .ok (m * n) := if_pos h

theorem mul_of_le {m n : ℕ} (h : 2 ^ W.bits ≤ m * n) : W.mul m n = .panic .mulOverflow :=
  if_neg (not_lt.mpr h)

end Usize

/-! ## Vectors -/

structure VecU8 where
  bytes : Bytes
  capacity : ℕ
deriving DecidableEq, Repr

section Vectors
variable (W : Usize)

/-- The capacity after `more` bytes on top of `len`: where they have no room it is doubled at
least. -/
def Usize.grow (len capacity more : ℕ) : Option ℕ :=
  if len + more ≤ capacity then some capacity
  else
    let capacity := max (max (2 * capacity) (len + more)) 8
    if capacity ≤ W.isizeMax then some capacity else none

def Usize.growAll : (len capacity : ℕ) → List ℕ → Option ℕ
  | _, capacity, [] => some capacity
  | len, capacity, more :: sizes =>
    (W.grow len capacity more).bind fun capacity => Usize.growAll (len + more) capacity sizes

def VecU8.withCapacity (n : ℕ) : Outcome VecU8 :=
  if n ≤ W.isizeMax then .ok { bytes := [], capacity := n } else .panic .capacityOverflow

def VecU8.extendFromSlice (v : VecU8) (more : Bytes) : Outcome VecU8 :=
  match W.grow v.bytes.length v.capacity more.length with
  | some capacity => .ok { bytes := v.bytes ++ more, capacity }
  | none => .panic .capacityOverflow

variable {W}

theorem VecU8.withCapacity_of_le {n : ℕ} (h : n ≤ W.isizeMax) :
    withCapacity W n = .ok { bytes := [], capacity := n } := if_pos h

theorem VecU8.withCapacity_of_lt {n : ℕ} (h : W.isizeMax < n) :
    withCapacity W n = .panic .capacityOverflow := if_neg (not_le.mpr h)

theorem VecU8.extendFromSlice_of_le {v : VecU8} {more : Bytes}
    (h : v.bytes.length + more.length ≤ v.capacity) :
    v.extendFromSlice W more = .ok { v with bytes := v.bytes ++ more } := by
  rw [extendFromSlice, Usize.grow, if_pos h]

theorem VecU8.extendFromSlice_of_grow {v : VecU8} {more : Bytes} {capacity : ℕ}
    (h : W.grow v.bytes.length v.capacity more.length = some capacity) :
    v.extendFromSlice W more = .ok { bytes := v.bytes ++ more, capacity } := by
  rw [extendFromSlice, h]

theorem VecU8.extendFromSlice_of_full {v : VecU8} {more : Bytes}
    (h : W.grow v.bytes.length v.capacity more.length = none) :
    v.extendFromSlice W more = .panic .capacityOverflow := by
  rw [extendFromSlice, h]

theorem Usize.growAll_of_le {len capacity : ℕ} {sizes : List ℕ}
    (h : len + sizes.sum ≤ capacity) : W.growAll len capacity sizes = some capacity := by
  induction sizes generalizing len with
  | nil => rfl
  | cons more sizes ih =>
    rw [List.sum_cons, ← Nat.add_assoc] at h
    rw [growAll, grow, if_pos (by omega), Option.bind_some]
    exact ih h

theorem VecU8.extendAll_of_grows {v : VecU8} {pieces : List Bytes} {capacity : ℕ}
    (h : W.growAll v.bytes.length v.capacity (pieces.map List.length) = some capacity) :
    pieces.foldlM (VecU8.extendFromSlice W) v =
      .ok { bytes := v.bytes ++ pieces.flatten, capacity } := by
  induction pieces generalizing v with
  | nil =>
    cases h
    simp
  | cons piece pieces ih =>
    obtain ⟨capacity', hgrow, hrest⟩ := Option.bind_eq_some_iff.mp h
    rw [← List.length_append] at hrest
    rw [List.foldlM_cons, extendFromSlice_of_grow hgrow, Outcome.ok_bind, ih hrest,
      List.flatten_cons, List.append_assoc]

theorem VecU8.extendAll_of_outgrown {v : VecU8} {pieces : List Bytes}
    (h : W.growAll v.bytes.length v.capacity (pieces.map List.length) = none) :
    pieces.foldlM (VecU8.extendFromSlice W) v = .panic .capacityOverflow := by
  induction pieces generalizing v with
  | nil => cases h
  | cons piece pieces ih =>
    rw [List.foldlM_cons]
    rcases hgrow : W.grow v.bytes.length v.capacity piece.length with _ | capacity
    · rw [extendFromSlice_of_full hgrow, Outcome.panic_bind]
    · have hrest : W.growAll (v.bytes.length + piece.length) capacity
          (pieces.map List.length) = none := by
        rw [List.map_cons, Usize.growAll, hgrow] at h
        exact h
      rw [← List.length_append] at hrest
      rw [extendFromSlice_of_grow hgrow, Outcome.ok_bind, ih hrest]

end Vectors

end Lib
