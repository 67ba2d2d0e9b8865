import Mathlib.Data.Set.Function

/-! Sets closed under rules with a single premise, where the premise is looked up by its key. -/

namespace Lib

/-- A rule asks for the object with the key `needs` and turns it into another one. -/
structure KeyedRules (α κ ρ : Type*) where
  key : α → κ
  needs : ρ → κ
  fire : ρ → α → Option α

variable {α κ ρ : Type*} (R : KeyedRules α κ ρ)

inductive Derived (seeds : Set α) (rules : Set ρ) : α → Prop
  | seed {a : α} : a ∈ seeds → Derived seeds rules a
  | rule {r : ρ} {b a : α} : r ∈ rules → Derived seeds rules b → R.key b = R.needs r →
      R.fire r b = some a → Derived seeds rules a

variable {R} {seeds seeds' : Set α} {rules rules' : Set ρ}

namespace Derived

theorem mem_of_closed {S : Set α} (hseeds : seeds ⊆ S)
    (hrules : ∀ r ∈ rules, ∀ b ∈ S, ∀ a, R.key b = R.needs r → R.fire r b = some a → a ∈ S) {a : α}
    (h : Derived R seeds rules a) : a ∈ S := by
  induction h with
  | seed h => exact hseeds h
  | rule hr _ hkey hfire ih => exact hrules _ hr _ ih _ hkey hfire

theorem mono (hseeds : seeds ⊆ seeds') (hrules : rules ⊆ rules') {a : α}
    (h : Derived R seeds rules a) : Derived R seeds' rules' a := by
  apply mem_of_closed (S := {a | Derived R seeds' rules' a}) _ _ h
  · exact fun b hb => .seed (hseeds hb)
  · exact fun r hr b hb a hkey hfire => .rule (hrules hr) hb hkey hfire

theorem of_seeds (hseeds : ∀ a ∈ seeds', Derived R seeds rules a) (hrules : rules' ⊆ rules) {a : α}
    (h : Derived R seeds' rules' a) : Derived R seeds rules a := by
  apply mem_of_closed (S := {a | Derived R seeds rules a}) hseeds _ h
  exact fun r hr b hb a hkey hfire => .rule (hrules hr) hb hkey hfire

end Derived

variable (R) in
/-- What a resolution loop leaves behind when it stops: all it knows is derived, the seeds are
known, and every rule whose premise is known has been applied to it. Keys stand for objects. -/
structure Saturated (seeds : Set α) (rules : Set ρ) (known : Set α) : Prop where
  sound : ∀ a ∈ known, Derived R seeds rules a
  seeds : ∀ a ∈ seeds, ∃ b ∈ known, R.key b = R.key a
  closed : ∀ r ∈ rules, (∀ b ∈ known, R.key b ≠ R.needs r) ∨
    ∃ b ∈ known, R.key b = R.needs r ∧ ∀ a, R.fire r b = some a → ∃ c ∈ known, R.key c = R.key a

/-- Where keys tell derived objects apart, a saturated set holds exactly what is derived. -/
theorem Saturated.mem_iff {known : Set α} (h : Saturated R seeds rules known)
    (hinj : Set.InjOn R.key {a | Derived R seeds rules a}) (a : α) :
    a ∈ known ↔ Derived R seeds rules a := by
  have hsame {b c : α} (hb : b ∈ known) (hc : Derived R seeds rules c)
      (hkey : R.key b = R.key c) : b = c :=
    hinj (h.sound b hb) hc hkey
  refine ⟨h.sound a, fun ha => ?_⟩
  induction ha with
  | @seed a hseed =>
    obtain ⟨b, hb, hkey⟩ := h.seeds a hseed
    exact hsame hb (.seed hseed) hkey ▸ hb
  | @rule r b a hr hb hkey hfire ih =>
    rcases h.closed r hr with hnone | ⟨b', hb', hkey', hfired⟩
    · exact absurd hkey (hnone b ih)
    · have heq : b' = b := hsame hb' hb (hkey'.trans hkey.symm)
      subst heq
      obtain ⟨c, hc, hkeyc⟩ := hfired a hfire
      exact hsame hc (.rule hr hb hkey hfire) hkeyc ▸ hc

end Lib
