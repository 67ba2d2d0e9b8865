import NearGit.Contract.History
import NearGit.Lib.Borsh

/-! `get_packs` from the service worker to the contract and back. The decoder of the service worker
takes what is there: `getUint32` throws past the end of the data, `slice` does not. -/

namespace NearGit.Contract
open Lib

/-- `get_packs` from its serialized argument to its serialized result. -/
def GitStorage.getPacksSerialized (s : GitStorage) (input : Bytes) : Option Bytes := do
  let fromIndex ← (Borsh.uint 4).tryFromSlice input
  (Borsh.vec Borsh.bytes).serialize (s.getPacks fromIndex)

theorem applyUpdates_packCount {us : List RefUpdate} {s s' : GitStorage}
    (h : us.foldlM GitStorage.applyUpdate s = .ok s') : s'.packCount = s.packCount := by
  induction us generalizing s with
  | nil =>
    cases h
    rfl
  | cons u us ih =>
    rw [List.foldlM_cons] at h
    obtain ⟨s₁, hupdate, h⟩ := except_bind_eq_ok.mp h
    obtain ⟨-, rfl⟩ := GitStorage.applyUpdate_eq_ok.mp hupdate
    exact (ih h).trans rfl

theorem packCount_lt_of_exec {s s' : GitStorage} {tx : Tx} (hs : s.packCount < 2 ^ 32)
    (hexec : s.exec tx = .ok s') : s'.packCount < 2 ^ 32 := by
  unfold GitStorage.exec at hexec
  split at hexec
  · obtain ⟨-, stored, hstore, hupdates⟩ := GitStorage.push_eq_ok.mp hexec
    rw [applyUpdates_packCount hupdates]
    rcases GitStorage.storePack_eq_ok.mp hstore with ⟨-, rfl⟩ | ⟨-, hroom, rfl⟩
    · exact hs
    · exact hroom
  · obtain ⟨-, rfl⟩ := GitStorage.clearStorage_eq_ok.mp hexec
    exact Nat.two_pow_pos 32
  all_goals
    cases hexec
    exact hs

theorem packCount_lt (owner : String) (txs : List Tx) :
    (stateAfter owner txs).packCount < 2 ^ 32 := by
  have hnew : (GitStorage.new owner).packCount < 2 ^ 32 := Nat.two_pow_pos 32
  exact Guarded.run_induction (P := fun (s : GitStorage) _ => s.packCount < 2 ^ 32) hnew
    (fun _ _ _ _ hs hexec => packCount_lt_of_exec hs hexec) txs

end NearGit.Contract

namespace NearGit.ServiceWorker
open Lib NearGit.Contract

/-- `setUint32(0, fromIndex, true)`. -/
def viewArgs (fromIndex : ℕ) : Bytes := Borsh.le 4 fromIndex

/-- The loop over the packs, where `data` is what lies after `pos`. -/
def decodePacks : ℕ → Bytes → Option (List Bytes)
  | 0, _ => some []
  | count + 1, data => do
    let (len, rest) ← Borsh.deserializeLen data
    let packs ← decodePacks count (rest.drop len)
    return rest.take len :: packs

/-- What `nearViewCallBorsh` makes of the result of the call. -/
def decodeView (data : Bytes) : Option (List Bytes) := do
  let (count, rest) ← Borsh.deserializeLen data
  decodePacks count rest

/-- `nearViewCallBorsh`, where the node answers. -/
def nearViewCallBorsh (contract : GitStorage) (fromIndex : ℕ) : Option (List Bytes) := do
  let result ← contract.getPacksSerialized (viewArgs fromIndex)
  decodeView result

def packBytes (pack : Bytes) : Bytes := Borsh.le32 pack.length ++ pack

theorem length_packBytes (pack : Bytes) : (packBytes pack).length = pack.length + 4 := by
  rw [packBytes, List.length_append, Nat.add_comm]
  rfl

theorem deserializeLen_short {data : Bytes} (h : data.length < 4) :
    Borsh.deserializeLen data = none := by
  match data, h with
  | [], _ | [_], _ | [_, _], _ | [_, _, _], _ => rfl

theorem deserializeLen_take {len : ℕ} (hlen : len < 2 ^ 32) (rest : Bytes) (n : ℕ) :
    Borsh.deserializeLen ((Borsh.le32 len ++ rest).take n) =
      if 4 ≤ n then some (len, rest.take (n - 4)) else none := by
  split_ifs with hn
  · have hfour : (Borsh.le32 len).length = 4 := rfl
    rw [List.take_append, hfour, List.take_of_length_le (by omega), Borsh.deserializeLen_le32 hlen]
  · apply deserializeLen_short
    rw [List.length_take]
    omega

theorem take_pack (pack rest : Bytes) (n : ℕ) :
    ((pack ++ rest).take n).take pack.length = pack.take n ∧
      ((pack ++ rest).take n).drop pack.length = rest.take (n - pack.length) := by
  rw [List.take_append]
  rcases le_or_gt pack.length n with hle | hgt
  · rw [List.take_of_length_le hle]
    exact ⟨List.take_left, List.drop_left⟩
  · have hnone : n - pack.length = 0 := Nat.sub_eq_zero_of_le hgt.le
    have hshort : (pack.take n).length ≤ pack.length := List.length_take_le' ..
    rw [hnone, List.take_zero, List.append_nil]
    exact ⟨List.take_of_length_le hshort, List.drop_eq_nil_of_le hshort⟩

theorem decodePacks_succ_take {pack : Bytes} (hpack : pack.length < 2 ^ 32) (rest : Bytes)
    (count n : ℕ) :
    decodePacks (count + 1) ((packBytes pack ++ rest).take n) =
      if 4 ≤ n then
        (decodePacks count (rest.take (n - (pack.length + 4)))).map (pack.take (n - 4) :: ·)
      else none := by
  have hsub : n - 4 - pack.length = n - (pack.length + 4) := by omega
  rw [decodePacks, packBytes, List.append_assoc, deserializeLen_take hpack]
  split_ifs
  · obtain ⟨htake, hdrop⟩ := take_pack pack rest (n - 4)
    simp only [Option.bind_eq_bind, Option.bind_some, htake, hdrop, hsub]
    rcases decodePacks count (rest.take (n - (pack.length + 4))) with _ | packs
    · rfl
    · rfl
  · rfl

/-- Of packs that are cut somewhere, the last one may be cut without notice. -/
theorem decodePacks_take {packs : List Bytes} {last : Bytes}
    (hpacks : ∀ pack ∈ packs, pack.length < 2 ^ 32) (hlast : last.length < 2 ^ 32) (n : ℕ) :
    decodePacks (packs.length + 1) ((packs.flatMap packBytes ++ packBytes last).take n) =
      if (packs.flatMap packBytes).length + 4 ≤ n then
        some (packs ++ [last.take (n - ((packs.flatMap packBytes).length + 4))])
      else none := by
  induction packs generalizing n with
  | nil =>
    have hround := decodePacks_succ_take hlast [] 0 n
    rw [List.append_nil] at hround
    exact hround
  | cons pack packs ih =>
    obtain ⟨hpack, hpacks⟩ := List.forall_mem_cons.mp hpacks
    rw [List.flatMap_cons, List.append_assoc, List.length_cons, decodePacks_succ_take hpack,
      ih hpacks, List.length_append, length_packBytes]
    -- the whole pack is there where the length of a later one is
    by_cases hfits : (packs.flatMap packBytes).length + 4 ≤ n - (pack.length + 4)
    · have hwhole : pack.take (n - 4) = pack := List.take_of_length_le (by omega)
      have hsub : n - (pack.length + 4) - ((packs.flatMap packBytes).length + 4) =
          n - (pack.length + 4 + (packs.flatMap packBytes).length + 4) := by omega
      rw [if_pos (by omega), if_pos hfits, if_pos (by omega), hwhole, hsub]
      rfl
    · have hlate : ¬ pack.length + 4 + (packs.flatMap packBytes).length + 4 ≤ n := by omega
      rw [if_neg hfits, if_neg hlate]
      split_ifs
      · rfl
      · rfl

theorem serialize_packs {packs : List Bytes} (hcount : packs.length < 2 ^ 32)
    (hpacks : ∀ pack ∈ packs, pack.length < 2 ^ 32) :
    (Borsh.vec Borsh.bytes).serialize packs =
      some (Borsh.le32 packs.length ++ packs.flatMap packBytes) := by
  have hparts : packs.mapM Borsh.bytes.serialize = some (packs.map packBytes) := by
    induction packs with
    | nil => rfl
    | cons pack packs ih =>
      obtain ⟨hpack, hpacks⟩ := List.forall_mem_cons.mp hpacks
      have hless : packs.length < 2 ^ 32 := (Nat.lt_succ_self _).trans hcount
      rw [List.mapM_cons, Borsh.serialize_bytes hpack, ih hless hpacks]
      rfl
  rw [Borsh.vec]
  simp only [Borsh.serializeLen_of_lt hcount, hparts, List.flatMap_def]
  rfl

theorem decodeView_take {packs : List Bytes} {last : Bytes} (hcount : packs.length + 1 < 2 ^ 32)
    (hpacks : ∀ pack ∈ packs, pack.length < 2 ^ 32) (hlast : last.length < 2 ^ 32) (n : ℕ) :
    decodeView ((Borsh.le32 (packs.length + 1) ++ (packs ++ [last]).flatMap packBytes).take n) =
      if (packs.flatMap packBytes).length + 8 ≤ n then
        some (packs ++ [last.take (n - ((packs.flatMap packBytes).length + 8))])
      else none := by
  rw [decodeView, deserializeLen_take hcount, List.flatMap_append, List.flatMap_singleton]
  by_cases hlate : (packs.flatMap packBytes).length + 8 ≤ n
  · have hearly : 4 ≤ n := by omega
    have hfits : (packs.flatMap packBytes).length + 4 ≤ n - 4 := by omega
    have hsub : n - 4 - ((packs.flatMap packBytes).length + 4) =
        n - ((packs.flatMap packBytes).length + 8) := by omega
    simp only [if_pos hearly, if_pos hlate, Option.bind_eq_bind, Option.bind_some,
      decodePacks_take hpacks hlast, if_pos hfits, hsub]
  · rw [if_neg hlate]
    split_ifs with hearly
    · have hfits : ¬ (packs.flatMap packBytes).length + 4 ≤ n - 4 := by omega
      simp only [Option.bind_eq_bind, Option.bind_some, decodePacks_take hpacks hlast,
        if_neg hfits]
    · rfl

def viewBytes (packs : List Bytes) : Bytes := Borsh.le32 packs.length ++ packs.flatMap packBytes

theorem length_viewBytes_concat (packs : List Bytes) (last : Bytes) :
    (viewBytes (packs ++ [last])).length =
      (packs.flatMap packBytes).length + 8 + last.length := by
  have hfour (n : ℕ) : (Borsh.le32 n).length = 4 := rfl
  rw [viewBytes, List.length_append, hfour, List.flatMap_append, List.flatMap_singleton,
    List.length_append, length_packBytes]
  omega

theorem decodeView_cut {packs : List Bytes} (hcount : packs.length < 2 ^ 32)
    (hpacks : ∀ pack ∈ packs, pack.length < 2 ^ 32) :
    decodeView (viewBytes packs) = some packs ∧
      ∀ n < (viewBytes packs).length, ∀ packs', decodeView ((viewBytes packs).take n) = some packs' ↔
        ∃ front last, packs = front ++ [last] ∧ (viewBytes packs).length ≤ n + last.length ∧
          packs' = front ++ [last.take (n + last.length - (viewBytes packs).length)] := by
  rcases List.eq_nil_or_concat' packs with rfl | ⟨front, last, rfl⟩
  · constructor
    · rfl
    · intro n hn packs'
      have hshort : n < 4 := hn
      refine iff_of_false ?_ ?_
      · rw [decodeView, viewBytes, deserializeLen_take hcount, if_neg (by omega)]
        exact Option.some_ne_none _ ∘ Eq.symm
      · rintro ⟨front, last, hnil, -⟩
        exact absurd hnil.symm (by simp)
  · obtain ⟨hfront, hlast⟩ := List.forall_mem_append.mp hpacks
    have hlast : last.length < 2 ^ 32 := hlast last (List.mem_singleton_self last)
    have hlen : (front ++ [last]).length = front.length + 1 := List.length_append
    have hcut (n : ℕ) := decodeView_take (hlen ▸ hcount) hfront hlast n
    rw [← hlen] at hcut
    have hlength := length_viewBytes_concat front last
    constructor
    · have hwhole := hcut (viewBytes (front ++ [last])).length
      have hall : last.take ((viewBytes (front ++ [last])).length -
          ((front.flatMap packBytes).length + 8)) = last := List.take_of_length_le (by omega)
      rw [if_pos (by omega), hall] at hwhole
      rw [← hwhole, ← viewBytes, List.take_length]
    · intro n hn packs'
      rw [viewBytes, hcut n, ← viewBytes, hlength]
      have hsub : n + last.length - ((front.flatMap packBytes).length + 8 + last.length) =
          n - ((front.flatMap packBytes).length + 8) := by omega
      constructor
      · intro h
        split_ifs at h with hlate
        refine ⟨front, last, rfl, by omega, ?_⟩
        rw [hsub]
        exact (Option.some.inj h).symm
      · rintro ⟨front', last', hsame, hlate, rfl⟩
        obtain ⟨rfl, hlast'⟩ := List.append_inj' hsame rfl
        cases hlast'
        rw [if_pos (by omega), hsub]

/-- The packs from `fromIndex` on reach the service worker as the contract has them. Of a response
that is cut it notices unless the cut is in the last pack, which it then takes to be shorter. -/
theorem view_packs (owner : String) (txs : List Tx) (fromIndex : ℕ) (hindex : fromIndex < 2 ^ 32)
    (hpacks : ∀ pack ∈ (stateAfter owner txs).getPacks fromIndex, pack.length < 2 ^ 32) :
    let packs := (stateAfter owner txs).getPacks fromIndex
    nearViewCallBorsh (stateAfter owner txs) fromIndex = some packs ∧
      ∃ data, (stateAfter owner txs).getPacksSerialized (viewArgs fromIndex) = some data ∧
        ∀ n < data.length, ∀ packs', decodeView (data.take n) = some packs' ↔
          ∃ front last, packs = front ++ [last] ∧ data.length ≤ n + last.length ∧
            packs' = front ++ [last.take (n + last.length - data.length)] := by
  intro packs
  have hcount : packs.length < 2 ^ 32 := by
    have hless : packs.length ≤ (stateAfter owner txs).packCount := by
      refine (List.length_filterMap_le ..).trans ?_
      rw [List.length_range']
      exact Nat.sub_le ..
    exact hless.trans_lt (packCount_lt owner txs)
  have hread : (Borsh.uint 4).tryFromSlice (viewArgs fromIndex) = some fromIndex := by
    have hfits : fromIndex < 256 ^ 4 := hindex.trans_eq (by norm_num)
    apply Borsh.Codec.tryFromSlice_eq
    rw [Borsh.uint]
    exact if_pos hfits
  have hdata : (stateAfter owner txs).getPacksSerialized (viewArgs fromIndex) =
      some (viewBytes packs) := by
    rw [GitStorage.getPacksSerialized, hread, Option.bind_eq_bind, Option.bind_some]
    exact serialize_packs hcount hpacks
  obtain ⟨hwhole, hcut⟩ := decodeView_cut hcount hpacks
  refine ⟨?_, viewBytes packs, hdata, hcut⟩
  rw [nearViewCallBorsh, hdata, Option.bind_eq_bind, Option.bind_some]
  exact hwhole

theorem view_packs_cut :
    let s := stateAfter "alice" [{ predecessor := "alice", call := .push [1, 2, 3] [] }]
    ∃ data, s.getPacksSerialized (viewArgs 0) = some data ∧
      decodeView (data.take (data.length - 2)) = some [[1]] := by
  intro s
  have hpacks : s.getPacks 0 = [[1, 2, 3]] := by decide +kernel
  have hshort : ∀ pack ∈ s.getPacks 0, pack.length < 2 ^ 32 := by
    rw [hpacks]
    exact List.forall_mem_singleton.mpr (by decide)
  obtain ⟨-, data, hdata, hcut⟩ := view_packs "alice"
    [{ predecessor := "alice", call := .push [1, 2, 3] [] }] 0 (by decide) hshort
  have hlong : data.length = 11 := by
    have hlength : (s.getPacksSerialized (viewArgs 0)).map List.length = some 11 := by
      decide +kernel
    rw [hdata] at hlength
    exact Option.some.inj hlength
  refine ⟨data, hdata, (hcut (data.length - 2) (by omega) [[1]]).mpr ⟨[], [1, 2, 3], hpacks, ?_, ?_⟩⟩
  · show data.length ≤ data.length - 2 + 3
    omega
  · have hleft : data.length - 2 + 3 - data.length = 1 := by omega
    show [[1]] = [] ++ [[1, 2, 3].take (data.length - 2 + 3 - data.length)]
    rw [hleft]
    rfl

end NearGit.ServiceWorker
