import Mathlib.Logic.Function.Basic
import Mathlib.Data.List.Basic
import Mathlib.Tactic.Ring

/-! What a call of a Rust function can do: return `Ok`, return `Err`, panic, or
never return. The four outcomes stay apart, since an unwind is not an `Err` and
a recursion without a base case is neither. -/

namespace Lib

/-- The run-time checks that make a release build with overflow checks panic. -/
inductive Panic
  | indexOutOfBounds
  | shiftOverflow
  | addOverflow
  | mulOverflow
  | capacityOverflow
  | message (text : String)
deriving DecidableEq, Repr

inductive Outcome (α : Type*)
  | ok (a : α)
  | err (text : String)
  | panic (why : Panic)
  | diverge
deriving DecidableEq, Repr

namespace Outcome
universe u v
variable {α β γ : Type u}

protected def bind {α β : Type*} (x : Outcome α) (f : α → Outcome β) : Outcome β :=
  match x with
  | ok a => f a
  | err text => err text
  | panic why => panic why
  | diverge => diverge

instance : Monad Outcome where
  pure := ok
  bind := Outcome.bind

@[simp] theorem pure_eq (a : α) : (pure a : Outcome α) = ok a := rfl

@[simp] theorem ok_bind (a : α) (f : α → Outcome β) : (ok a >>= f) = f a := rfl

@[simp] theorem err_bind (text : String) (f : α → Outcome β) : (err text >>= f) = err text := rfl

@[simp] theorem panic_bind (why : Panic) (f : α → Outcome β) : (panic why >>= f) = panic why := rfl

@[simp] theorem diverge_bind (f : α → Outcome β) : (diverge >>= f) = diverge := rfl

theorem bind_eq_ok {x : Outcome α} {f : α → Outcome β} {b : β} :
    x >>= f = ok b ↔ ∃ a, x = ok a ∧ f a = ok b := by
  cases x <;> simp

theorem bind_eq_panic {x : Outcome α} {f : α → Outcome β} {why : Panic} :
    x >>= f = panic why ↔ x = panic why ∨ ∃ a, x = ok a ∧ f a = panic why := by
  cases x <;> simp

instance : LawfulMonad Outcome :=
  LawfulMonad.mk' _ (fun x => by cases x <;> rfl) (fun _ _ => rfl)
    (fun x _ _ => by cases x <;> rfl)

def toOption : Outcome α → Option α
  | ok a => some a
  | _ => none

@[simp] theorem toOption_eq_some {x : Outcome α} {a : α} : x.toOption = some a ↔ x = ok a := by
  cases x <;> simp [toOption]

theorem answers_iff {x : Outcome α} :
    ((∃ a, x = ok a) ∨ ∃ text, x = err text) ↔ x ≠ diverge ∧ ∀ why, x ≠ panic why := by
  cases x <;> simp

/-- `map_err` on the result of a crate that reports its errors as text. -/
def ofExcept (mapErr : String → String) : Except String α → Outcome α
  | .ok a => ok a
  | .error e => err (mapErr e)

@[simp] theorem ofExcept_ok (mapErr : String → String) (a : α) :
    ofExcept mapErr (.ok a) = ok a := rfl

theorem mapM_eq_ok_map {f : α → Outcome β} {g : α → β} {l : List α}
    (h : ∀ a ∈ l, f a = ok (g a)) : l.mapM f = ok (l.map g) := by
  induction l with
  | nil => rfl
  | cons a l ih =>
    rw [List.mapM_cons, h a (List.mem_cons_self ..), ok_bind,
      ih fun b hb => h b (List.mem_cons_of_mem _ hb)]
    rfl

def NeverErr {α : Type*} (x : Outcome α) : Prop := ∀ text, x ≠ err text

theorem neverErr_ok {α : Type*} (a : α) : (ok a).NeverErr := fun _ h => by cases h

theorem neverErr_panic {α : Type*} (why : Panic) : (panic why : Outcome α).NeverErr :=
  fun _ h => by cases h

theorem NeverErr.bind {x : Outcome α} {f : α → Outcome β} (hx : x.NeverErr)
    (hf : ∀ a, (f a).NeverErr) : (x >>= f).NeverErr := by
  cases x with
  | ok a => exact hf a
  | err text => exact absurd rfl (hx text)
  | panic why => exact neverErr_panic why
  | diverge => exact fun _ h => by cases h

theorem NeverErr.mapM {f : α → Outcome β} (hf : ∀ a, (f a).NeverErr) (l : List α) :
    (l.mapM f).NeverErr := by
  induction l with
  | nil => exact neverErr_ok _
  | cons a l ih =>
    rw [List.mapM_cons]
    exact (hf a).bind fun b => ih.bind fun bs => neverErr_ok _

theorem NeverErr.foldlM {f : β → α → Outcome β} (hf : ∀ b a, (f b a).NeverErr) (l : List α)
    (b : β) : (l.foldlM f b).NeverErr := by
  induction l generalizing b with
  | nil => exact neverErr_ok b
  | cons a l ih =>
    rw [List.foldlM_cons]
    exact (hf b a).bind ih

/-- The call comes to an end, and an error it returns has one of the texts. -/
def ErrsWith {α : Type*} (texts : String → Prop) : Outcome α → Prop
  | ok _ | panic _ => True
  | err text => texts text
  | diverge => False

theorem ErrsWith.bind {texts : String → Prop} {x : Outcome α} {f : α → Outcome β}
    (hx : x.ErrsWith texts) (hf : ∀ a, (f a).ErrsWith texts) : (x >>= f).ErrsWith texts := by
  cases x with
  | ok a => exact hf a
  | err text => exact hx
  | panic why => trivial
  | diverge => exact hx

theorem ErrsWith.exists_err {texts : String → Prop} {x : Outcome α} (h : x.ErrsWith texts)
    (hok : ∀ a, x ≠ ok a) (hpanic : ∀ why, x ≠ panic why) : ∃ text, x = err text ∧ texts text := by
  cases x with
  | ok a => exact absurd rfl (hok a)
  | err text => exact ⟨text, rfl, h⟩
  | panic why => exact absurd rfl (hpanic why)
  | diverge => exact h.elim

end Outcome

theorem except_bind_eq_ok {ε α β : Type} {x : Except ε α} {f : α → Except ε β} {b : β} :
    x >>= f = .ok b ↔ ∃ a, x = .ok a ∧ f a = .ok b := by
  cases x <;> simp [bind, Except.bind]

theorem except_check_eq_ok {ε β : Type} {x : Except ε Unit} {f : Unit → Except ε β} {b : β} :
    x >>= f = .ok b ↔ x = .ok () ∧ f () = .ok b := by
  rw [except_bind_eq_ok]
  exact ⟨fun ⟨⟨⟩, h⟩ => h, fun h => ⟨(), h⟩⟩

theorem except_mapM_eq_ok {ε α β : Type} {f : α → Except ε β} {l : List α} {r : List β} :
    l.mapM f = .ok r ↔ List.Forall₂ (fun a b => f a = .ok b) l r := by
  induction l generalizing r with
  | nil =>
    constructor
    · intro h
      cases h
      exact .nil
    · intro h
      cases h
      rfl
  | cons a l ih =>
    rw [List.mapM_cons, except_bind_eq_ok]
    constructor
    · rintro ⟨b, hb, h⟩
      obtain ⟨bs, hbs, h⟩ := except_bind_eq_ok.mp h
      cases h
      exact .cons hb (ih.mp hbs)
    · intro h
      cases h with
      | cons hb hbs => exact ⟨_, hb, except_bind_eq_ok.mpr ⟨_, ih.mpr hbs, rfl⟩⟩

theorem except_mapError_eq_ok {ε δ β : Type} {x : Except ε β} {f : ε → δ} {b : β} :
    x.mapError f = .ok b ↔ x = .ok b := by
  cases x <;> simp [Except.mapError]

section FoldlM
variable {α β : Type} {f : β → α → Outcome β}

/-- A property of the accumulator that every `Ok` step keeps holds at the end of the loop. -/
theorem foldlM_invariant {P : β → Prop} (hf : ∀ b a b', P b → f b a = .ok b' → P b') :
    ∀ {l : List α} {b b' : β}, P b → l.foldlM f b = .ok b' → P b' := by
  intro l
  induction l with
  | nil =>
    intro b b' hb h
    simp only [List.foldlM_nil, Outcome.pure_eq, Outcome.ok.injEq] at h
    exact h ▸ hb
  | cons a l ih =>
    intro b b' hb h
    rw [List.foldlM_cons, Outcome.bind_eq_ok] at h
    obtain ⟨c, hc, h⟩ := h
    exact ih (hf b a c hb hc) h

end FoldlM

theorem except_toOption_eq_some {ε α : Type*} {x : Except ε α} {a : α} :
    x.toOption = some a ↔ x = .ok a := by
  cases x <;> simp [Except.toOption]

theorem except_exists_of_isSome {ε α : Type*} {x : Except ε α} (h : x.toOption.isSome = true) :
    ∃ a, x = .ok a := by
  rcases x with e | a
  · cases h
  · exact ⟨a, rfl⟩

end Lib
