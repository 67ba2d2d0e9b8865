import Mathlib.Data.List.Basic

/-! Decimal text: `str::parse` for unsigned integer types. -/

namespace Lib.Decimal

inductive ParseIntError
  | empty
  | invalidDigit
  | posOverflow
deriving DecidableEq, Repr

def ParseIntError.text : ParseIntError → String
  | .empty => "cannot parse integer from empty string"
  | .invalidDigit => "invalid digit found in string"
  | .posOverflow => "number too large to fit in target type"

def toDigit (c : Char) : Option Nat :=
  if '0' ≤ c ∧ c ≤ '9' then some (c.toNat - '0'.toNat) else none

def digits (max : Nat) : (value : Nat) → List Char → Except ParseIntError Nat
  | value, [] => .ok value
  | value, c :: rest =>
    match toDigit c with
    | none => .error .invalidDigit
    | some d =>
      if value * 10 + d ≤ max then digits max (value * 10 + d) rest else .error .posOverflow

/-- One leading `+` is taken as a sign. -/
def parse (max : Nat) (src : String) : Except ParseIntError Nat :=
  match src.toList with
  | [] => .error .empty
  | ['+'] | ['-'] => .error .invalidDigit
  | '+' :: rest => digits max 0 rest
  | rest => digits max 0 rest

theorem digits_le {max value n : Nat} {src : List Char} (hvalue : value ≤ max)
    (h : digits max value src = .ok n) : n ≤ max := by
  induction src generalizing value with
  | nil =>
    cases h
    exact hvalue
  | cons c rest ih =>
    rw [digits] at h
    split at h
    · cases h
    · split_ifs at h with hle
      exact ih hle h

theorem parse_le {max n : Nat} {src : String} (h : parse max src = .ok n) : n ≤ max := by
  unfold parse at h
  split at h
  · cases h
  · cases h
  · cases h
  · exact digits_le (Nat.zero_le max) h
  · exact digits_le (Nat.zero_le max) h

end Lib.Decimal
