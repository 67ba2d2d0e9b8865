import Mathlib.Data.Set.Basic

/-! Transition systems and what holds in all of their reachable states. -/

namespace Lib

structure System (σ : Type*) where
  init : Set σ
  step : σ → σ → Prop

namespace System
variable {σ : Type*} {S : System σ}

inductive Reachable (S : System σ) : σ → Prop
  | init {s : σ} : s ∈ S.init → Reachable S s
  | step {s s' : σ} : Reachable S s → S.step s s' → Reachable S s'

theorem Reachable.invariant {I : σ → Prop} (hinit : ∀ s ∈ S.init, I s)
    (hstep : ∀ s s', I s → S.step s s' → I s') {s : σ} (h : S.Reachable s) : I s := by
  induction h with
  | init hs => exact hinit _ hs
  | step _ hs ih => exact hstep _ _ ih hs

/-- Where an assumption on a state is inherited by all states before it, an invariant may rest on
that assumption. -/
theorem Reachable.invariant_of {A I : σ → Prop} (hback : ∀ s s', S.step s s' → A s' → A s)
    (hinit : ∀ s ∈ S.init, A s → I s) (hstep : ∀ s s', I s → S.step s s' → A s' → I s')
    {s : σ} (h : S.Reachable s) (hA : A s) : I s := by
  have key : A s → I s := by
    apply Reachable.invariant (I := fun s => A s → I s) hinit _ h
    intro s s' hs hss' hA'
    exact hstep s s' (hs (hback s s' hss' hA')) hss' hA'
  exact key hA

end System

end Lib
