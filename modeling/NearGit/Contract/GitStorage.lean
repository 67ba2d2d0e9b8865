import NearGit.Lib.Outcome
import NearGit.Lib.Bytes
import NearGit.Lib.CasMap
import NearGit.Lib.Guarded
import NearGit.Lib.IterableMap
import Mathlib.Data.List.AList

/-! The `GitStorage` contract. The store collections of the SDK are maps here, and a call that
panics leaves no trace in them. -/

namespace NearGit.Contract
open Lib

structure RefUpdate where
  name : String
  oldSha : Option String
  newSha : String
deriving DecidableEq, Repr

inductive ContractPanic
  /-- "Only the owner can perform this action" -/
  | notOwner
  /-- `pack_count += 1` past `u32::MAX` -/
  | addOverflow
  /-- "Ref update CAS failure for '{}': expected {:?}, got {:?}" -/
  | casFailure (name : String) (expected got : Option String)
deriving DecidableEq, Repr

structure GitStorage where
  refs : IterableMap String String
  packs : AList fun _ : Nat => Bytes
  packCount : Nat
  owner : String

/-- `new`: the owner is the signer of the transaction. -/
def GitStorage.new (signer : String) : GitStorage where
  refs := ∅
  packs := ∅
  packCount := 0
  owner := signer

namespace GitStorage

def assertOwner (s : GitStorage) (predecessor : String) : Except ContractPanic Unit :=
  if predecessor = s.owner then .ok () else .error .notOwner

/-- The first part of `push`. -/
def storePack (s : GitStorage) (packData : Bytes) : Except ContractPanic GitStorage :=
  if packData ≠ [] then
    let packs := s.packs.insert s.packCount packData
    if s.packCount + 1 < 2 ^ 32 then .ok { s with packs, packCount := s.packCount + 1 }
    else .error .addOverflow
  else .ok s

/-- One round of the loop over the ref updates. -/
def applyUpdate (s : GitStorage) (update : RefUpdate) : Except ContractPanic GitStorage :=
  match update.oldSha, s.refs.get update.name with
  | none, none => .ok { s with refs := s.refs.insert update.name update.newSha }
  | some old, some cur =>
    if old = cur then .ok { s with refs := s.refs.insert update.name update.newSha }
    else .error (.casFailure update.name (some old) (some cur))
  | oldSha, current => .error (.casFailure update.name oldSha current)

def push (s : GitStorage) (predecessor : String) (packData : Bytes)
    (refUpdates : List RefUpdate) : Except ContractPanic GitStorage := do
  s.assertOwner predecessor
  -- the pack is in before the updates are checked; their panic takes it out again
  let s ← s.storePack packData
  refUpdates.foldlM applyUpdate s

def getRefs (s : GitStorage) : List (String × String) := s.refs.entries

def getPackCount (s : GitStorage) : Nat := s.packCount

def getPacks (s : GitStorage) (fromIndex : Nat) : List Bytes :=
  (List.range' fromIndex (s.packCount - fromIndex)).filterMap s.packs.lookup

def getOwner (s : GitStorage) : String := s.owner

def clearStorage (s : GitStorage) (predecessor : String) : Except ContractPanic GitStorage := do
  s.assertOwner predecessor
  let packs := (List.range s.packCount).foldl (fun packs i => packs.erase i) s.packs
  let refKeys := s.refs.keys
  let refs := refKeys.foldl (fun refs key => refs.remove key) s.refs
  return { s with packs, packCount := 0, refs }

end GitStorage

/-! ## Transactions -/

inductive Call
  | push (packData : Bytes) (refUpdates : List RefUpdate)
  | clearStorage
  | getRefs
  | getPackCount
  | getPacks (fromIndex : Nat)
  | getOwner
deriving DecidableEq, Repr

structure Tx where
  predecessor : String
  call : Call
deriving DecidableEq, Repr

def GitStorage.exec (s : GitStorage) (tx : Tx) : Except ContractPanic GitStorage :=
  match tx.call with
  | .push packData refUpdates => s.push tx.predecessor packData refUpdates
  | .clearStorage => s.clearStorage tx.predecessor
  | .getRefs | .getPackCount | .getPacks _ | .getOwner => .ok s

/-! ## What a call does when it does not panic -/

namespace GitStorage
variable {s s' : GitStorage}

theorem assertOwner_eq_ok {predecessor : String} :
    s.assertOwner predecessor = .ok () ↔ predecessor = s.owner := by
  rw [assertOwner]
  split_ifs with h <;> simp [h]

theorem storePack_eq_ok {packData : Bytes} : s.storePack packData = .ok s' ↔
    (packData = [] ∧ s' = s) ∨ (packData ≠ [] ∧ s.packCount + 1 < 2 ^ 32 ∧
      s' = { s with packs := s.packs.insert s.packCount packData, packCount := s.packCount + 1 }) := by
  rw [storePack]
  split_ifs with hne hlt
  · rw [Except.ok.injEq, eq_comm]
    exact ⟨fun h => .inr ⟨hne, hlt, h⟩, fun h => h.elim (fun h => absurd h.1 hne) fun h => h.2.2⟩
  · exact ⟨fun h => absurd h (by simp),
      fun h => h.elim (fun h => absurd h.1 hne) fun h => absurd h.2.1 hlt⟩
  · simp [not_not.mp hne, eq_comm]

theorem applyUpdate_eq_ok {update : RefUpdate} : s.applyUpdate update = .ok s' ↔
    s.refs.get update.name = update.oldSha ∧
      s' = { s with refs := s.refs.insert update.name update.newSha } := by
  rw [applyUpdate]
  rcases update.oldSha with _ | old <;> rcases s.refs.get update.name with _ | cur
  · simp [eq_comm]
  · simp
  · simp
  · simp only [Option.some.injEq]
    split_ifs with h
    · simp [h, eq_comm]
    · simp [Ne.symm h]

theorem push_eq_ok {predecessor : String} {packData : Bytes} {refUpdates : List RefUpdate} :
    s.push predecessor packData refUpdates = .ok s' ↔ predecessor = s.owner ∧
      ∃ stored, s.storePack packData = .ok stored ∧
        refUpdates.foldlM applyUpdate stored = .ok s' := by
  rw [push, except_check_eq_ok, assertOwner_eq_ok, except_bind_eq_ok]

theorem clearStorage_eq_ok {predecessor : String} :
    s.clearStorage predecessor = .ok s' ↔ predecessor = s.owner ∧
      s' = { s with
        packs := (List.range s.packCount).foldl (fun packs i => packs.erase i) s.packs
        packCount := 0
        refs := s.refs.keys.foldl (fun refs key => refs.remove key) s.refs } := by
  rw [clearStorage, except_check_eq_ok, assertOwner_eq_ok]
  simp [pure, Except.pure, eq_comm]

end GitStorage

end NearGit.Contract
