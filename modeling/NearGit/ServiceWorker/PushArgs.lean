import NearGit.GitServer.ReceivePack
import NearGit.Lib.Base64

/-! The Borsh arguments of `push` as `nearFunctionCall` writes them by hand. -/

namespace NearGit.ServiceWorker
open Lib NearGit.Contract

/-- `args` of a `push` call: the pack in Base64; an `old_sha` may be null. -/
structure PushArgs where
  packData : String
  refUpdates : List RefUpdate

def uint8ToBase64 (bytes : Bytes) : String := Base64.encode bytes

/-- `setUint32(0, length, true)`: the length modulo 2^32. -/
def lengthBytes (bytes : Bytes) : Bytes := Borsh.le32 bytes.length

/-- The parts for one `u` of `ref_updates`. An empty `old_sha` is falsy, like null. -/
def refUpdateParts (u : RefUpdate) : List Bytes :=
  let nameBytes := Utf8.encode u.name
  let newBytes := Utf8.encode u.newSha
  let oldParts : List Bytes :=
    match u.oldSha with
    | some oldSha =>
      if oldSha ≠ "" then
        let oldBytes := Utf8.encode oldSha
        [[1], lengthBytes oldBytes, oldBytes]
      else [[0]]
    | none => [[0]]
  [lengthBytes nameBytes, nameBytes] ++ oldParts ++ [lengthBytes newBytes, newBytes]

/-- `argsBytes` for `push`; `atob` throws on what is no Base64. -/
def pushArgsBytes (args : PushArgs) : Option Bytes := do
  let packData ← Base64.decode args.packData
  let parts := [lengthBytes packData, packData] ++ [Borsh.le32 args.refUpdates.length] ++
    args.refUpdates.flatMap refUpdateParts
  return parts.flatten

structure FitsBorsh (u : RefUpdate) : Prop where
  name : (Utf8.encode u.name).length < 2 ^ 32
  oldSha : ∀ old, u.oldSha = some old → old ≠ "" ∧ (Utf8.encode old).length < 2 ^ 32
  newSha : (Utf8.encode u.newSha).length < 2 ^ 32

theorem serialize_refUpdate {u : RefUpdate} (h : FitsBorsh u) :
    refUpdateCodec.serialize u = some (refUpdateParts u).flatten := by
  have hname := Borsh.serialize_string h.name
  have hnew := Borsh.serialize_string h.newSha
  rcases hold : u.oldSha with _ | old
  · simp [refUpdateCodec, Borsh.Codec.map, Borsh.pair, Borsh.option, refUpdateParts, lengthBytes,
      hold, hname, hnew]
  · obtain ⟨hne, hlen⟩ := h.oldSha old hold
    simp [refUpdateCodec, Borsh.Codec.map, Borsh.pair, Borsh.option, refUpdateParts, lengthBytes,
      hold, hname, hnew, Borsh.serialize_string hlen, hne]

theorem serialize_refUpdates {updates : List RefUpdate} (hcount : updates.length < 2 ^ 32)
    (h : ∀ u ∈ updates, FitsBorsh u) :
    (Borsh.vec refUpdateCodec).serialize updates =
      some (Borsh.le32 updates.length ++ (updates.flatMap refUpdateParts).flatten) := by
  have hparts : updates.mapM refUpdateCodec.serialize =
      some (updates.map fun u => (refUpdateParts u).flatten) := by
    clear hcount
    induction updates with
    | nil => rfl
    | cons u updates ih =>
      obtain ⟨hu, hupdates⟩ := List.forall_mem_cons.mp h
      rw [List.mapM_cons, serialize_refUpdate hu, ih hupdates]
      rfl
  have hflatten : (updates.map fun u => (refUpdateParts u).flatten).flatten =
      (updates.flatMap refUpdateParts).flatten := by
    rw [List.flatMap_def, List.flatten_flatten, List.map_map]
    rfl
  rw [Borsh.vec]
  simp only [Borsh.serializeLen_of_lt hcount, hparts, ← hflatten]
  rfl

theorem pushArgsBytes_eq (pack : Bytes) (updates : List RefUpdate) :
    pushArgsBytes { packData := uint8ToBase64 pack, refUpdates := updates } =
      some (lengthBytes pack ++ pack ++
        (Borsh.le32 updates.length ++ (updates.flatMap refUpdateParts).flatten)) := by
  rw [pushArgsBytes, uint8ToBase64, Base64.decode_encode]
  simp

theorem serialize_pushArgs {pack input : Bytes} {updates : List RefUpdate}
    (hpack : pack.length < 2 ^ 32) (hcount : updates.length < 2 ^ 32)
    (hupdates : ∀ u ∈ updates, FitsBorsh u)
    (h : pushArgsBytes { packData := uint8ToBase64 pack, refUpdates := updates } = some input) :
    pushArgsCodec.serialize (pack, updates) = some input := by
  rw [pushArgsBytes_eq] at h
  rw [pushArgsCodec, Borsh.pair]
  simp only [Borsh.serialize_bytes hpack, serialize_refUpdates hcount hupdates]
  exact h

/-- Both encoders write the same bytes, and `push` reads the same arguments back from them. -/
theorem pushArgs_agree (pack : Bytes) (updates : List RefUpdate) (hpack : pack.length < 2 ^ 32)
    (hcount : updates.length < 2 ^ 32) (hupdates : ∀ u ∈ updates, FitsBorsh u) :
    ∃ argsBytes, pushArgsBytes { packData := uint8ToBase64 pack, refUpdates := updates } =
        some argsBytes ∧
      GitServer.encodePushArgs pack updates = .ok argsBytes ∧
      decodePushArgs argsBytes = some (pack, updates) := by
  have hargs := pushArgsBytes_eq pack updates
  refine ⟨_, hargs, ?_, ?_⟩
  · rw [GitServer.encodePushArgs, Borsh.serialize_bytes hpack, serialize_refUpdates hcount hupdates]
    rfl
  · exact Borsh.Codec.tryFromSlice_eq _ (serialize_pushArgs hpack hcount hupdates hargs)

def samplePushUpdates : List RefUpdate :=
  [{ name := "refs/heads/größe", oldSha := none, newSha := "1f" },
    { name := "refs/heads/main", oldSha := some "2e", newSha := "" }]

theorem pushArgs_agree_sample : ∃ argsBytes,
    pushArgsBytes { packData := uint8ToBase64 [1, 2, 3, 255], refUpdates := samplePushUpdates } =
        some argsBytes ∧
      GitServer.encodePushArgs [1, 2, 3, 255] samplePushUpdates = .ok argsBytes ∧
      decodePushArgs argsBytes = some ([1, 2, 3, 255], samplePushUpdates) := by
  have hfits : ∀ u ∈ samplePushUpdates, FitsBorsh u := by
    refine List.forall_mem_cons.mpr ⟨⟨by decide +kernel, by simp, by decide +kernel⟩,
      List.forall_mem_cons.mpr ⟨⟨by decide +kernel, fun old hold => ?_, by decide +kernel⟩,
        by simp⟩⟩
    cases hold
    exact ⟨by decide, by decide +kernel⟩
  exact pushArgs_agree [1, 2, 3, 255] samplePushUpdates (by decide) (by decide) hfits

end NearGit.ServiceWorker
