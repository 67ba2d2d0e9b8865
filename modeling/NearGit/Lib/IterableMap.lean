import Mathlib.Data.List.Nodup
import Mathlib.Data.List.Perm.Basic

/-! Maps that are listed in the order of their keys' insertion: a new key goes to the end, a known
one keeps its place, and the last one takes the place of one that is removed. -/

namespace Lib

structure IterableMap (κ ν : Type*) where
  entries : List (κ × ν)
  nodup : (entries.map Prod.fst).Nodup

namespace IterableMap
variable {κ ν : Type*}

instance : EmptyCollection (IterableMap κ ν) := ⟨⟨[], .nil⟩⟩

def keys (m : IterableMap κ ν) : List κ := m.entries.map Prod.fst

theorem nodup_keys (m : IterableMap κ ν) : m.keys.Nodup := m.nodup

theorem eq_empty_of_keys {m : IterableMap κ ν} (h : m.keys = []) : m = ∅ := by
  obtain ⟨entries, hnodup⟩ := m
  obtain rfl : entries = [] := List.map_eq_nil_iff.mp h
  rfl

/-- `Vec::swap_remove`, for an index in the list. -/
def swapRemove {α : Type*} (l : List α) (i : ℕ) : List α :=
  match l.getLast? with
  | none => []
  | some last => (l.set i last).dropLast

theorem swapRemove_perm {α : Type*} {l : List α} {i : ℕ} (h : i < l.length) :
    (swapRemove l i).Perm (l.eraseIdx i) := by
  rcases List.eq_nil_or_concat' l with rfl | ⟨init, last, rfl⟩
  · exact absurd h (Nat.not_lt_zero i)
  have hswap : swapRemove (init ++ [last]) i = ((init ++ [last]).set i last).dropLast := by
    rw [swapRemove, List.getLast?_concat]
  rw [hswap]
  rcases Nat.lt_or_ge i init.length with hlt | hge
  · -- the last one moves to where the removed one was
    rw [List.set_append_left _ _ hlt, List.dropLast_concat, List.eraseIdx_append_of_lt_length hlt]
    exact (List.set_perm_cons_eraseIdx hlt last).trans (List.perm_append_singleton _ _).symm
  · obtain rfl : i = init.length := by
      rw [List.length_append, List.length_singleton] at h
      omega
    simp [List.set_append_right, List.eraseIdx_append_of_length_le]

variable [DecidableEq κ]

def get (m : IterableMap κ ν) (key : κ) : Option ν := m.entries.lookup key

def insertEntry (key : κ) (value : ν) : List (κ × ν) → List (κ × ν)
  | [] => [(key, value)]
  | e :: es => if e.1 = key then (key, value) :: es else e :: insertEntry key value es

theorem keys_insertEntry (key : κ) (value : ν) (es : List (κ × ν)) :
    (insertEntry key value es).map Prod.fst =
      if key ∈ es.map Prod.fst then es.map Prod.fst else es.map Prod.fst ++ [key] := by
  induction es with
  | nil => rfl
  | cons e es ih =>
    rw [insertEntry, List.map_cons]
    rcases eq_or_ne e.1 key with rfl | hne
    · rw [if_pos rfl, if_pos List.mem_cons_self, List.map_cons]
    · rw [if_neg hne, List.map_cons, ih]
      by_cases hmem : key ∈ es.map Prod.fst
      · rw [if_pos hmem, if_pos (List.mem_cons_of_mem _ hmem)]
      · rw [if_neg hmem, if_neg (List.not_mem_cons_of_ne_of_not_mem hne.symm hmem),
          List.cons_append]

def insert (m : IterableMap κ ν) (key : κ) (value : ν) : IterableMap κ ν where
  entries := insertEntry key value m.entries
  nodup := by
    rw [keys_insertEntry]
    split_ifs with h
    · exact m.nodup
    · rw [← List.concat_eq_append]
      exact m.nodup.concat h

def remove (m : IterableMap κ ν) (key : κ) : IterableMap κ ν :=
  let i := m.keys.idxOf key
  if h : i < m.entries.length then
    { entries := swapRemove m.entries i
      nodup := ((swapRemove_perm h).map Prod.fst).nodup_iff.mpr
        (m.nodup.sublist ((List.eraseIdx_sublist _ _).map Prod.fst)) }
  else m

theorem mem_entries {m : IterableMap κ ν} {key : κ} {value : ν} :
    (key, value) ∈ m.entries ↔ m.get key = some value := by
  obtain ⟨entries, hnodup⟩ := m
  change (key, value) ∈ entries ↔ entries.lookup key = some value
  induction entries with
  | nil => simp
  | cons e es ih =>
    obtain ⟨hnew, hes⟩ := List.nodup_cons.mp hnodup
    rw [List.mem_cons, List.lookup_cons]
    rcases eq_or_ne key e.1 with rfl | hne
    · have hnotMem : (e.1, value) ∉ es := fun h => hnew (List.mem_map.mpr ⟨_, h, rfl⟩)
      rw [beq_self_eq_true, or_iff_left hnotMem, Prod.ext_iff]
      simp [eq_comm]
    · have hother : (key, value) ≠ e := fun h => hne (congrArg Prod.fst h)
      rw [beq_false_of_ne hne, or_iff_right hother]
      exact ih hes

theorem keys_insert (m : IterableMap κ ν) (key : κ) (value : ν) :
    (m.insert key value).keys = if key ∈ m.keys then m.keys else m.keys ++ [key] :=
  keys_insertEntry key value m.entries

@[simp] theorem get_insert_self (m : IterableMap κ ν) (key : κ) (value : ν) :
    (m.insert key value).get key = some value := by
  change (insertEntry key value m.entries).lookup key = some value
  induction m.entries with
  | nil => exact List.lookup_cons_self
  | cons e es ih =>
    rw [insertEntry]
    split_ifs with h
    · exact List.lookup_cons_self
    · rw [List.lookup_cons, beq_false_of_ne (Ne.symm h)]
      exact ih

theorem get_insert_of_ne (m : IterableMap κ ν) {key key' : κ} (h : key' ≠ key) (value : ν) :
    (m.insert key value).get key' = m.get key' := by
  change (insertEntry key value m.entries).lookup key' = m.entries.lookup key'
  induction m.entries with
  | nil => rw [insertEntry, List.lookup_cons, beq_false_of_ne h]
  | cons e es ih =>
    rw [insertEntry]
    split_ifs with hkey
    · rw [List.lookup_cons, List.lookup_cons, hkey, beq_false_of_ne h]
    · rw [List.lookup_cons, List.lookup_cons, ih]

theorem mem_keys_remove {m : IterableMap κ ν} {key key' : κ} :
    key' ∈ (m.remove key).keys ↔ key' ≠ key ∧ key' ∈ m.keys := by
  have hlength : m.keys.length = m.entries.length := List.length_map _
  have hperm : (m.remove key).keys.Perm (m.keys.erase key) := by
    rw [remove, List.erase_eq_eraseIdx_of_idxOf rfl]
    split_ifs with h
    · change ((swapRemove m.entries _).map Prod.fst).Perm ((m.entries.map Prod.fst).eraseIdx _)
      rw [List.eraseIdx_map]
      exact (swapRemove_perm h).map Prod.fst
    · rw [List.eraseIdx_of_length_le (by omega)]
  rw [hperm.mem_iff, m.nodup_keys.mem_erase_iff]

theorem foldl_remove_eq_empty {m : IterableMap κ ν} {keys : List κ} (h : ∀ k ∈ m.keys, k ∈ keys) :
    keys.foldl remove m = ∅ := by
  induction keys generalizing m with
  | nil =>
    have hkeys : m.keys = [] := List.eq_nil_iff_forall_not_mem.mpr fun k hk =>
      absurd (h k hk) List.not_mem_nil
    exact eq_empty_of_keys hkeys
  | cons key keys ih =>
    refine ih fun k hk => ?_
    obtain ⟨hne, hmem⟩ := mem_keys_remove.mp hk
    exact (List.mem_cons.mp (h k hmem)).resolve_left hne

end IterableMap

end Lib
