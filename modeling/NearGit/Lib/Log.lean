import Mathlib.Data.Set.Basic
import Mathlib.Data.List.Induction

/-! Logs whose entries stand on the entries before them, and what the entries bring together. -/

namespace Lib

variable {α κ : Type*}

/-- Each entry has `R` to the log before it. -/
def EachAfter (R : List α → α → Prop) (log : List α) : Prop :=
  ∀ (i : Nat) (a : α), log[i]? = some a → R (log.take i) a

theorem eachAfter_nil (R : List α → α → Prop) : EachAfter R [] := by
  intro i a hi
  simp at hi

theorem eachAfter_concat {R : List α → α → Prop} {log : List α} {a : α} :
    EachAfter R (log ++ [a]) ↔ EachAfter R log ∧ R log a := by
  constructor
  · intro h
    constructor
    · intro i b hi
      have hlt : i < log.length := (List.getElem?_eq_some_iff.mp hi).1
      have hR := h i b (by rw [List.getElem?_append_left hlt, hi])
      rwa [List.take_append_of_le_length hlt.le] at hR
    · have hR := h log.length a List.getElem?_concat_length
      rwa [List.take_left] at hR
  · rintro ⟨hlog, ha⟩ i b hi
    rcases Nat.lt_trichotomy i log.length with hlt | rfl | hgt
    · rw [List.getElem?_append_left hlt] at hi
      rw [List.take_append_of_le_length hlt.le]
      exact hlog i b hi
    · rw [List.getElem?_concat_length, Option.some.injEq] at hi
      rw [List.take_left, ← hi]
      exact ha
    · rw [List.getElem?_eq_none (by simp; omega)] at hi
      cases hi

def gathered (keys : α → Set κ) (log : List α) : Set κ := {k | ∃ a ∈ log, k ∈ keys a}

@[simp] theorem gathered_nil (keys : α → Set κ) : gathered keys [] = ∅ := by
  simp [gathered]

@[simp] theorem gathered_append (keys : α → Set κ) (log log' : List α) :
    gathered keys (log ++ log') = gathered keys log ∪ gathered keys log' := by
  ext k
  simp [gathered, or_and_right, exists_or]

@[simp] theorem gathered_singleton (keys : α → Set κ) (a : α) : gathered keys [a] = keys a := by
  simp [gathered]

theorem gathered_mono (keys : α → Set κ) {log log' : List α} (h : log ⊆ log') :
    gathered keys log ⊆ gathered keys log' :=
  fun _ ⟨a, ha, hk⟩ => ⟨a, h ha, hk⟩

end Lib
