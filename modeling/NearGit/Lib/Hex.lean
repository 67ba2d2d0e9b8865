import Mathlib.Data.List.Induction
import NearGit.Lib.Outcome
import NearGit.Lib.Bytes

/-! Hexadecimal text: `{:02x}` formatting and `from_str_radix(_, 16)`. -/

namespace Lib.Hex

def ofByte (b : UInt8) : List Char := [Nat.digitChar (b.toNat / 16), Nat.digitChar (b.toNat % 16)]

def ofBytes (bytes : Bytes) : String := String.ofList (bytes.flatMap ofByte)

def toDigit (c : Char) : Option Nat :=
  if '0' ≤ c ∧ c ≤ '9' then some (c.toNat - '0'.toNat)
  else if 'a' ≤ c ∧ c ≤ 'f' then some (c.toNat - 'a'.toNat + 10)
  else if 'A' ≤ c ∧ c ≤ 'F' then some (c.toNat - 'A'.toNat + 10)
  else none

/-- The digit loop of `from_str_radix(_, 16)` for an unsigned type with the given maximum. -/
def digits (max : Nat) (src : List Char) : Option Nat :=
  src.foldlM (fun acc c => do
    let d ← toDigit c
    if acc * 16 + d ≤ max then some (acc * 16 + d) else none) 0

/-- `from_str_radix(_, 16)` for an unsigned type with the given maximum; one leading `+` is
taken as a sign. -/
def fromStrRadix (max : Nat) (src : List Char) : Option Nat :=
  match src with
  | [] => none
  | ['+'] => none
  | '+' :: rest => digits max rest
  | rest => digits max rest

theorem ofByte_length (b : UInt8) : (ofByte b).length = 2 := rfl

theorem fromStrRadix_ofByte (b : UInt8) : fromStrRadix 255 (ofByte b) = some b.toNat := by
  have h : ∀ n : Fin 256,
      fromStrRadix 255 [Nat.digitChar (n.val / 16), Nat.digitChar (n.val % 16)] = some n.val := by
    decide +kernel
  exact h ⟨b.toNat, b.toNat_lt⟩

theorem drop_take_flatMap_ofByte (bytes : Bytes) {i : Nat} (hi : i < bytes.length) :
    ((bytes.flatMap ofByte).drop (i * 2)).take 2 = ofByte bytes[i] := by
  induction bytes generalizing i with
  | nil => exact absurd hi (Nat.not_lt_zero i)
  | cons b bytes ih =>
    cases i with
    | zero => rfl
    | succ i =>
      have hi' : i < bytes.length := by simpa using hi
      have hdrop : ((b :: bytes).flatMap ofByte).drop ((i + 1) * 2) =
          (bytes.flatMap ofByte).drop (i * 2) := by
        rw [show (i + 1) * 2 = i * 2 + 2 by ring]
        rfl
      rw [hdrop, ih hi']
      rfl

/-! ## Numbers written in base 16 -/

theorem toDigit_digitChar {d : Nat} (hd : d < 16) : toDigit (Nat.digitChar d) = some d := by
  have h : ∀ d : Fin 16, toDigit (Nat.digitChar d.val) = some d.val := by decide
  exact h ⟨d, hd⟩

theorem mem_toDigits {n : Nat} {c : Char} (h : c ∈ Nat.toDigits 16 n) :
    ∃ d < 16, c = Nat.digitChar d := by
  induction n using Nat.strong_induction_on with
  | _ n ih =>
    rw [Nat.toDigits_eq_if (by decide)] at h
    split_ifs at h with hlt
    · exact ⟨n, hlt, List.mem_singleton.mp h⟩
    · rcases List.mem_append.mp h with hfront | hlast
      · exact ih (n / 16) (Nat.div_lt_self (by omega) (by decide)) hfront
      · exact ⟨n % 16, Nat.mod_lt n (by decide), List.mem_singleton.mp hlast⟩

theorem digits_concat_digitChar {max d : Nat} (hd : d < 16) (src : List Char) :
    digits max (src ++ [Nat.digitChar d]) =
      (digits max src).bind fun acc => if acc * 16 + d ≤ max then some (acc * 16 + d) else none := by
  rw [digits, digits, List.foldlM_append]
  refine congrArg (Option.bind _) (funext fun acc => ?_)
  rw [List.foldlM_cons, toDigit_digitChar hd]
  simp

theorem digits_toDigits {n max : Nat} (h : n ≤ max) :
    digits max (Nat.toDigits 16 n) = some n := by
  induction n using Nat.strong_induction_on with
  | _ n ih =>
    rw [Nat.toDigits_eq_if (by decide)]
    split_ifs with hlt
    · rw [← List.nil_append [Nat.digitChar n], digits_concat_digitChar hlt]
      simp [digits, h]
    · have hdiv : n / 16 < n := Nat.div_lt_self (by omega) (by decide)
      rw [digits_concat_digitChar (Nat.mod_lt n (by decide)), ih _ hdiv (hdiv.le.trans h),
        Option.bind_some, Nat.div_add_mod', if_pos h]

theorem digits_zeros (max k : Nat) (src : List Char) :
    digits max (List.replicate k '0' ++ src) = digits max src := by
  induction k with
  | zero => rfl
  | succ k ih =>
    have hzero : toDigit '0' = some 0 := rfl
    rw [List.replicate_succ, List.cons_append, ← ih, digits, List.foldlM_cons, hzero]
    simp [digits]

theorem fromStrRadix_eq_digits {max : Nat} {src : List Char} (hne : src ≠ [])
    (hplus : '+' ∉ src) : fromStrRadix max src = digits max src := by
  unfold fromStrRadix
  split
  · exact absurd rfl hne
  · exact absurd (List.mem_singleton_self _) hplus
  · exact absurd (List.mem_cons_self ..) hplus
  · rfl

/-! ## Two characters -/

theorem ascii_of_toDigit {c : Char} {d : Nat} (h : toDigit c = some d) : c.toNat < 128 := by
  have hbound {a b : Char} (hab : a ≤ b) : a.toNat ≤ b.toNat := UInt32.le_iff_toNat_le.mp hab
  unfold toDigit at h
  split_ifs at h with hdec hlower hupper
  · exact (hbound hdec.2).trans_lt (by decide)
  · exact (hbound hlower.2).trans_lt (by decide)
  · exact (hbound hupper.2).trans_lt (by decide)

theorem digitChar_of_toDigit {c : Char} {d : Nat} (h : toDigit c = some d) :
    d < 16 ∧ Nat.digitChar d = c.toLower := by
  have hall : ∀ n : Fin 128, ((toDigit (Char.ofNat n.val)).all fun d =>
      decide (d < 16) && Nat.digitChar d == (Char.ofNat n.val).toLower) = true := by
    decide
  have hc := hall ⟨c.toNat, ascii_of_toDigit h⟩
  rw [Char.ofNat_toNat, h, Option.all_some, Bool.and_eq_true, decide_eq_true_eq, beq_iff_eq] at hc
  exact hc

theorem digits_lt {max n : Nat} {src : List Char} (h : digits max src = some n) :
    n < 16 ^ src.length := by
  induction src using List.reverseRecOn generalizing n with
  | nil =>
    cases h
    decide
  | append_singleton src c ih =>
    rw [digits, List.foldlM_append, ← digits] at h
    obtain ⟨acc, hacc, h⟩ := Option.bind_eq_some_iff.mp h
    simp only [List.foldlM_cons, List.foldlM_nil, Option.bind_eq_bind,
      Option.bind_eq_some_iff] at h
    obtain ⟨acc', ⟨d, hd, hlast⟩, hn⟩ := h
    split_ifs at hlast
    cases hlast
    cases hn
    have hfront := ih hacc
    have hdigit := (digitChar_of_toDigit hd).1
    rw [List.length_append, List.length_singleton, pow_succ]
    omega

theorem fromStrRadix_lt {max n : Nat} {src : List Char} (h : fromStrRadix max src = some n) :
    n < 16 ^ src.length := by
  unfold fromStrRadix at h
  split at h
  · cases h
  · cases h
  · exact (digits_lt h).trans_le (Nat.pow_le_pow_right (by decide) (Nat.le_succ _))
  · exact digits_lt h

inductive IsPair : List Char → Nat → Prop
  | digits {a b : Char} {m n : Nat} : toDigit a = some m → toDigit b = some n →
      IsPair [a, b] (m * 16 + n)
  | signed {b : Char} {n : Nat} : toDigit b = some n → IsPair ['+', b] n

theorem IsPair.length_eq {p : List Char} {n : Nat} (h : IsPair p n) : p.length = 2 := by
  cases h with
  | digits => rfl
  | signed => rfl

theorem IsPair.lt {p : List Char} {n : Nat} (h : IsPair p n) : n < 256 := by
  cases h with
  | digits ha hb =>
    have hm := (digitChar_of_toDigit ha).1
    have hn := (digitChar_of_toDigit hb).1
    omega
  | signed hb => exact (digitChar_of_toDigit hb).1.trans (by decide)

theorem IsPair.ascii {p : List Char} {n : Nat} (h : IsPair p n) : ∀ c ∈ p, c.toNat < 128 := by
  cases h with
  | digits ha hb =>
    exact List.forall_mem_cons.mpr ⟨ascii_of_toDigit ha,
      List.forall_mem_singleton.mpr (ascii_of_toDigit hb)⟩
  | signed hb =>
    exact List.forall_mem_cons.mpr ⟨by decide,
      List.forall_mem_singleton.mpr (ascii_of_toDigit hb)⟩

theorem digits_one (c : Char) : digits 255 [c] = toDigit c := by
  rcases hd : toDigit c with _ | d
  · simp [digits, hd]
  · have hlt := (digitChar_of_toDigit hd).1
    have hle : d ≤ 255 := by omega
    simp [digits, hd, hle]

theorem digits_two {a b : Char} {n : Nat} : digits 255 [a, b] = some n ↔
    ∃ d e, toDigit a = some d ∧ toDigit b = some e ∧ n = d * 16 + e := by
  constructor
  · intro h
    simp only [digits, List.foldlM_cons, List.foldlM_nil, Option.bind_eq_bind,
      Option.bind_eq_some_iff] at h
    obtain ⟨acc, ⟨d, hd, hacc⟩, acc', ⟨e, he, hacc'⟩, hn⟩ := h
    split_ifs at hacc hacc'
    cases hacc
    cases hacc'
    cases hn
    rw [Nat.zero_mul, Nat.zero_add]
    exact ⟨d, e, hd, he, rfl⟩
  · rintro ⟨d, e, hd, he, rfl⟩
    have hdlt := (digitChar_of_toDigit hd).1
    have helt := (digitChar_of_toDigit he).1
    have hle : d ≤ 255 := by omega
    have hle' : d * 16 + e ≤ 255 := by omega
    simp [digits, hd, he, hle, hle']

theorem fromStrRadix_two {a : Char} (ha : a ≠ '+') (b : Char) :
    fromStrRadix 255 [a, b] = digits 255 [a, b] := by
  unfold fromStrRadix
  split
  · next heq => cases heq
  · next heq => cases heq
  · next heq => exact absurd (List.cons.inj heq).1 ha
  · rfl

theorem fromStrRadix_pair {a b : Char} {n : Nat} :
    fromStrRadix 255 [a, b] = some n ↔ IsPair [a, b] n := by
  by_cases hplus : a = '+'
  · subst hplus
    have hsigned : fromStrRadix 255 ['+', b] = toDigit b := digits_one b
    rw [hsigned]
    constructor
    · exact .signed
    · intro h
      cases h with
      | digits ha _ => cases ha
      | signed hb => exact hb
  · rw [fromStrRadix_two hplus, digits_two]
    constructor
    · rintro ⟨d, e, hd, he, rfl⟩
      exact .digits hd he
    · intro h
      cases h with
      | digits ha hb => exact ⟨_, _, ha, hb, rfl⟩
      | signed => exact absurd rfl hplus

end Lib.Hex
