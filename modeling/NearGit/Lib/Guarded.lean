import Mathlib.Data.List.Basic
import Mathlib.Data.List.Induction

/-! Systems whose operations can be refused: a refused operation leaves the state as it was, so
a run is the run of the operations that were accepted. -/

namespace Lib.Guarded

variable {σ α ε : Type*} (exec : σ → α → Except ε σ)

def step (s : σ) (a : α) : σ :=
  match exec s a with
  | .ok s' => s'
  | .error _ => s

def run (s : σ) (as : List α) : σ := as.foldl (step exec) s

def accepted (s : σ) : List α → List α
  | [] => []
  | a :: as =>
    match exec s a with
    | .ok s' => a :: accepted s' as
    | .error _ => accepted s as

variable {exec}

theorem step_of_ok {s s' : σ} {a : α} (h : exec s a = .ok s') : step exec s a = s' := by
  rw [step, h]

theorem step_of_error {s : σ} {a : α} {e : ε} (h : exec s a = .error e) : step exec s a = s := by
  rw [step, h]

@[simp] theorem run_nil (s : σ) : run exec s [] = s := rfl

@[simp] theorem run_cons (s : σ) (a : α) (as : List α) :
    run exec s (a :: as) = run exec (step exec s a) as := rfl

theorem run_append (s : σ) (as bs : List α) :
    run exec s (as ++ bs) = run exec (run exec s as) bs := List.foldl_append ..

theorem accepted_append (s : σ) (as bs : List α) :
    accepted exec s (as ++ bs) = accepted exec s as ++ accepted exec (run exec s as) bs := by
  induction as generalizing s with
  | nil => rfl
  | cons a as ih =>
    rcases h : exec s a with e | s'
    · simp only [List.cons_append, accepted, run_cons, h, step_of_error h, ih]
    · simp only [List.cons_append, accepted, run_cons, h, step_of_ok h, ih]

theorem run_induction {P : σ → List α → Prop} {s : σ} (init : P s [])
    (step : ∀ s' as a s'', P s' as → exec s' a = .ok s'' → P s'' (as ++ [a])) (as : List α) :
    P (run exec s as) (accepted exec s as) := by
  induction as using List.reverseRecOn with
  | nil => exact init
  | append_singleton as a ih =>
    rw [run_append, accepted_append]
    rcases h : exec (run exec s as) a with e | s'
    · simpa [accepted, h, step_of_error h] using ih
    · simpa [accepted, h, step_of_ok h] using step _ _ _ _ ih h

end Lib.Guarded
