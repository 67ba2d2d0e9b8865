import Mathlib.Logic.Function.Basic
import Mathlib.Data.List.Basic
import Mathlib.Data.List.Induction

/-! Maps that are only written by compare-and-swap, and cleared as a whole. The updates of one
key form a chain: each one expects the value of the one before. -/

namespace Lib.CasMap

variable {κ ν : Type*}

structure Update (κ ν : Type*) where
  key : κ
  expected : Option ν
  value : ν

inductive Event (κ ν : Type*)
  | update (u : Update κ ν)
  | clear

def IsChain (cur : Option ν) : List (Update κ ν) → Prop
  | [] => True
  | u :: us => u.expected = cur ∧ IsChain (some u.value) us

def lastValue (cur : Option ν) : List (Update κ ν) → Option ν
  | [] => cur
  | u :: us => lastValue (some u.value) us

theorem IsChain.getElem? {cur : Option ν} {us : List (Update κ ν)} (h : IsChain cur us) :
    (∀ u, us[0]? = some u → u.expected = cur) ∧
      ∀ k u u', us[k]? = some u → us[k + 1]? = some u' → u'.expected = some u.value := by
  induction us generalizing cur with
  | nil => simp
  | cons u us ih =>
    obtain ⟨hcur, htail⟩ := h
    obtain ⟨hfirst, hnext⟩ := ih htail
    refine ⟨fun u₀ h₀ => ?_, fun k u₁ u₂ h₁ h₂ => ?_⟩
    · simp only [List.getElem?_cons_zero, Option.some.injEq] at h₀
      exact h₀ ▸ hcur
    · cases k with
      | zero =>
        simp only [List.getElem?_cons_zero, Option.some.injEq] at h₁
        exact h₁ ▸ hfirst u₂ h₂
      | succ k => exact hnext k u₁ u₂ h₁ h₂

theorem lastValue_eq (cur : Option ν) (us : List (Update κ ν)) :
    lastValue cur us = (us.getLast?.map Update.value).or cur := by
  induction us generalizing cur with
  | nil => rfl
  | cons u us ih =>
    rw [lastValue, ih, List.getLast?_cons]
    cases us.getLast? <;> rfl

variable [DecidableEq κ]

def updatesOf (k : κ) (events : List (Event κ ν)) : List (Update κ ν) :=
  events.filterMap fun
    | .update u => if u.key = k then some u else none
    | .clear => none

theorem updatesOf_cons (k : κ) (u : Update κ ν) (es : List (Event κ ν)) :
    updatesOf k (.update u :: es) = if u.key = k then u :: updatesOf k es else updatesOf k es := by
  rw [updatesOf, List.filterMap_cons]
  split_ifs with h <;> simp [h, updatesOf]

variable [DecidableEq ν]

def Event.apply (m : κ → Option ν) : Event κ ν → Option (κ → Option ν)
  | .update u =>
    if m u.key = u.expected then some (Function.update m u.key (some u.value)) else none
  | .clear => some fun _ => none

def applyAll (m : κ → Option ν) (events : List (Event κ ν)) : Option (κ → Option ν) :=
  events.foldlM Event.apply m

theorem applyAll_append (m : κ → Option ν) (es fs : List (Event κ ν)) :
    applyAll m (es ++ fs) = (applyAll m es).bind fun m' => applyAll m' fs :=
  List.foldlM_append ..

theorem applyAll_update_cons {m m' : κ → Option ν} {u : Update κ ν} {es : List (Event κ ν)} :
    applyAll m (.update u :: es) = some m' ↔ m u.key = u.expected ∧
      applyAll (Function.update m u.key (some u.value)) es = some m' := by
  rw [applyAll, List.foldlM_cons, Event.apply]
  split_ifs with h
  · simp [h, applyAll]
  · simp [h]

theorem applyAll_map_update {m m' : κ → Option ν} {us : List (Update κ ν)}
    (h : applyAll m (us.map .update) = some m') :
    m' = us.foldl (fun (m : κ → Option ν) u => Function.update m u.key (some u.value)) m := by
  induction us generalizing m with
  | nil =>
    simp only [List.map_nil, applyAll, List.foldlM_nil, Option.pure_def, Option.some.injEq] at h
    exact h.symm
  | cons u us ih =>
    rw [List.map_cons, applyAll_update_cons] at h
    exact ih h.2

/-- Between two clears, the updates of a key form a chain, and the map holds its end. -/
theorem applyAll_chain {m m' : κ → Option ν} {es : List (Event κ ν)}
    (h : applyAll m es = some m') (hclear : .clear ∉ es) (k : κ) :
    IsChain (m k) (updatesOf k es) ∧ m' k = lastValue (m k) (updatesOf k es) := by
  induction es generalizing m with
  | nil =>
    simp only [applyAll, List.foldlM_nil, Option.pure_def, Option.some.injEq] at h
    exact ⟨trivial, by rw [← h]; rfl⟩
  | cons e es ih =>
    rw [List.mem_cons, not_or] at hclear
    cases e with
    | clear => exact absurd rfl hclear.1
    | update u =>
      obtain ⟨hexp, h⟩ := applyAll_update_cons.mp h
      obtain ⟨hchain, hlast⟩ := ih h hclear.2
      rw [updatesOf_cons]
      split_ifs with hk
      · subst hk
        rw [Function.update_self] at hchain hlast
        exact ⟨⟨hexp.symm, hchain⟩, hlast⟩
      · rw [Function.update_of_ne (Ne.symm hk)] at hchain hlast
        exact ⟨hchain, hlast⟩

theorem applyAll_key_ne {m m' : κ → Option ν} {us : List (Update κ ν)} {k : κ} {v : ν}
    (h : applyAll m (us.map .update) = some m') (hexpected : ∀ u ∈ us, u.expected ≠ some v)
    (hk : m k = some v) : ∀ u ∈ us, u.key ≠ k := by
  induction us generalizing m with
  | nil => exact fun u hu => absurd hu List.not_mem_nil
  | cons u us ih =>
    obtain ⟨hfound, h⟩ := applyAll_update_cons.mp h
    obtain ⟨hne, hexpected⟩ := List.forall_mem_cons.mp hexpected
    have hkey : u.key ≠ k := by
      rintro rfl
      exact hne (hfound.symm.trans hk)
    refine List.forall_mem_cons.mpr ⟨hkey, ih h hexpected ?_⟩
    rw [Function.update_of_ne (Ne.symm hkey), hk]

theorem applyAll_unexpected {m m' : κ → Option ν} {us : List (Update κ ν)} {k : κ} {v : ν}
    (h : applyAll m (us.map .update) = some m') (hexpected : ∀ u ∈ us, u.expected ≠ some v)
    (hk : m k = some v ∨ ∃ u ∈ us, u.key = k ∧ u.value = v) : m' k = some v := by
  induction us generalizing m with
  | nil =>
    simp only [List.map_nil, applyAll, List.foldlM_nil, Option.pure_def, Option.some.injEq] at h
    rcases hk with hk | ⟨u, hu, -⟩
    · exact h ▸ hk
    · exact absurd hu List.not_mem_nil
  | cons u us ih =>
    obtain ⟨hfound, h⟩ := applyAll_update_cons.mp h
    obtain ⟨hne, hexpected⟩ := List.forall_mem_cons.mp hexpected
    refine ih h hexpected ?_
    by_cases hkey : u.key = k
    · rw [hkey] at hfound ⊢
      rw [Function.update_self]
      rcases hk with hk | ⟨u', hu', hkey', hvalue⟩
      · exact absurd (hfound.symm.trans hk) hne
      · rcases List.mem_cons.mp hu' with rfl | hu'
        · exact .inl (congrArg some hvalue)
        · exact .inr ⟨u', hu', hkey', hvalue⟩
    · rw [Function.update_of_ne (Ne.symm hkey)]
      rcases hk with hk | ⟨u', hu', hkey', hvalue⟩
      · exact .inl hk
      · rcases List.mem_cons.mp hu' with rfl | hu'
        · exact absurd hkey' hkey
        · exact .inr ⟨u', hu', hkey', hvalue⟩

theorem applyAll_isSome_iff {m : κ → Option ν} {us : List (Update κ ν)}
    (hnodup : (us.map Update.key).Nodup) :
    (∃ m', applyAll m (us.map .update) = some m') ↔ ∀ u ∈ us, m u.key = u.expected := by
  induction us generalizing m with
  | nil => exact iff_of_true ⟨m, rfl⟩ fun u hu => absurd hu List.not_mem_nil
  | cons u us ih =>
    rw [List.map_cons, List.nodup_cons] at hnodup
    obtain ⟨hu, hus⟩ := hnodup
    simp only [List.map_cons, applyAll_update_cons, exists_and_left, ih hus, List.forall_mem_cons]
    refine and_congr_right fun _ => forall₂_congr fun u' hu' => ?_
    have hne : u'.key ≠ u.key := fun heq => hu (heq ▸ List.mem_map_of_mem hu')
    rw [Function.update_of_ne hne]

theorem applyAll_values {m m' : κ → Option ν} {us : List (Update κ ν)}
    (hnodup : (us.map Update.key).Nodup) (h : applyAll m (us.map .update) = some m') :
    (∀ u ∈ us, m' u.key = some u.value) ∧ ∀ k, (∀ u ∈ us, u.key ≠ k) → m' k = m k := by
  induction us generalizing m with
  | nil =>
    simp only [List.map_nil, applyAll, List.foldlM_nil, Option.pure_def, Option.some.injEq] at h
    exact ⟨fun u hu => absurd hu List.not_mem_nil, fun k _ => by rw [h]⟩
  | cons u us ih =>
    rw [List.map_cons, List.nodup_cons] at hnodup
    obtain ⟨hu, hus⟩ := hnodup
    obtain ⟨-, h⟩ := applyAll_update_cons.mp h
    obtain ⟨hvalues, hrest⟩ := ih hus h
    constructor
    · refine List.forall_mem_cons.mpr ⟨?_, hvalues⟩
      rw [hrest u.key fun u' hu' heq => hu (heq ▸ List.mem_map_of_mem hu'), Function.update_self]
    · intro k hk
      obtain ⟨hne, hk⟩ := List.forall_mem_cons.mp hk
      rw [hrest k hk, Function.update_of_ne (Ne.symm hne)]

theorem applyAll_eq_some {m m' : κ → Option ν} {es : List (Event κ ν)}
    (h : applyAll m es = some m') {k : κ} {v : ν} (hk : m' k = some v) :
    m k = some v ∨ ∃ u, .update u ∈ es ∧ u.key = k ∧ u.value = v := by
  induction es generalizing m with
  | nil =>
    simp only [applyAll, List.foldlM_nil, Option.pure_def, Option.some.injEq] at h
    exact .inl (h ▸ hk)
  | cons e es ih =>
    cases e with
    | clear =>
      rcases ih (m := fun _ => none) h with h' | ⟨u, hu, hkey⟩
      · simp at h'
      · exact .inr ⟨u, List.mem_cons_of_mem _ hu, hkey⟩
    | update u =>
      obtain ⟨-, h⟩ := applyAll_update_cons.mp h
      rcases ih h with h' | ⟨u', hu', hkey⟩
      · rcases eq_or_ne k u.key with rfl | hne
        · rw [Function.update_self, Option.some.injEq] at h'
          exact .inr ⟨u, List.mem_cons_self .., rfl, h'⟩
        · rw [Function.update_of_ne hne] at h'
          exact .inl h'
      · exact .inr ⟨u', List.mem_cons_of_mem _ hu', hkey⟩

theorem applyAll_eq_none {m m' : κ → Option ν} {es : List (Event κ ν)}
    (h : applyAll m es = some m') {k : κ} (hk : m' k = none) : m k = none ∨ .clear ∈ es := by
  induction es generalizing m with
  | nil =>
    simp only [applyAll, List.foldlM_nil, Option.pure_def, Option.some.injEq] at h
    exact .inl (h ▸ hk)
  | cons e es ih =>
    cases e with
    | clear => exact .inr (List.mem_cons_self ..)
    | update u =>
      obtain ⟨-, h⟩ := applyAll_update_cons.mp h
      rcases ih h with h' | h'
      · rcases eq_or_ne k u.key with rfl | hne
        · simp at h'
        · rw [Function.update_of_ne hne] at h'
          exact .inl h'
      · exact .inr (List.mem_cons_of_mem _ h')

theorem applyAll_expected {m m' : κ → Option ν} {es fs : List (Event κ ν)} {u : Update κ ν}
    (h : applyAll m (es ++ .update u :: fs) = some m') {v : ν} (hexp : u.expected = some v) :
    m u.key = some v ∨ ∃ x, .update x ∈ es ∧ x.key = u.key ∧ x.value = v := by
  rw [applyAll_append, Option.bind_eq_some_iff] at h
  obtain ⟨m₁, hes, h⟩ := h
  obtain ⟨hfound, -⟩ := applyAll_update_cons.mp h
  exact applyAll_eq_some hes (hfound.trans hexp)

/-- Two updates of a key that expect the same: the later one finds a value that was written
back, or an absent key that a clear has removed. -/
theorem separated {m m' : κ → Option ν} {pre mid post : List (Event κ ν)} {u u' : Update κ ν}
    (h : applyAll m (pre ++ .update u :: mid ++ .update u' :: post) = some m')
    (hkey : u'.key = u.key) (hexp : u'.expected = u.expected) :
    (∀ v, u.expected = some v →
      ∃ x, .update x ∈ .update u :: mid ∧ x.key = u.key ∧ x.value = v) ∧
      (u.expected = none → .clear ∈ mid) := by
  rw [List.append_assoc, applyAll_append, Option.bind_eq_some_iff] at h
  obtain ⟨m₁, -, h⟩ := h
  rw [List.cons_append, applyAll_update_cons] at h
  obtain ⟨-, h⟩ := h
  rw [applyAll_append, Option.bind_eq_some_iff] at h
  obtain ⟨m₂, hmid, h⟩ := h
  -- what `u'` finds is what `u` expected, but what `u` left is its own value
  obtain ⟨hfound, -⟩ := applyAll_update_cons.mp h
  rw [hkey, hexp] at hfound
  constructor
  · intro v hv
    rcases applyAll_eq_some hmid (hfound.trans hv) with hset | ⟨x, hx, hx'⟩
    · rw [Function.update_self, Option.some.injEq] at hset
      exact ⟨u, List.mem_cons_self .., rfl, hset⟩
    · exact ⟨x, List.mem_cons_of_mem _ hx, hx'⟩
  · intro hv
    rcases applyAll_eq_none hmid (hfound.trans hv) with hset | hclear
    · simp at hset
    · exact hclear

end Lib.CasMap
