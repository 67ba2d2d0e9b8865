import NearGit.Contract.GitStorage

/-! What the contract is for: an append-only log of packs next to a map of refs that is only
written by compare-and-swap. The contract refines this, call by call. -/

namespace NearGit.Contract
open Lib

structure Repo where
  log : List Bytes
  refs : String → Option String

def Repo.empty : Repo := { log := [], refs := fun _ => none }

def RefUpdate.toUpdate (u : RefUpdate) : CasMap.Update String String where
  key := u.name
  expected := u.oldSha
  value := u.newSha

namespace Call

def packs : Call → List Bytes
  | .push packData _ => if packData = [] then [] else [packData]
  | _ => []

def refUpdates : Call → List RefUpdate
  | .push _ refUpdates => refUpdates
  | _ => []

def events : Call → List (CasMap.Event String String)
  | .clearStorage => [.clear]
  | call => call.refUpdates.map fun u => .update u.toUpdate

def Mutates : Call → Prop
  | .push _ _ | .clearStorage => True
  | _ => False

end Call

def Repo.exec (r : Repo) (call : Call) : Option Repo := do
  let refs ← CasMap.applyAll r.refs call.events
  return { log := if call = .clearStorage then [] else r.log ++ call.packs, refs }

theorem Repo.exec_push {r r' : Repo} {packData : Bytes} {us : List RefUpdate} :
    r.exec (.push packData us) = some r' ↔
      ∃ refs, CasMap.applyAll r.refs (us.map fun u => .update u.toUpdate) = some refs ∧
        r' = { log := r.log ++ if packData = [] then [] else [packData], refs } := by
  simp only [Repo.exec, Option.bind_eq_bind, Option.bind_eq_some_iff, Option.pure_def,
    Option.some.injEq, eq_comm (b := r')]
  rfl

theorem Repo.exec_push_singleton {r r' : Repo} {packData : Bytes} {u : RefUpdate} :
    r.exec (.push packData [u]) = some r' ↔ r.refs u.name = u.oldSha ∧
      r' = { log := r.log ++ if packData = [] then [] else [packData]
             refs := Function.update r.refs u.name (some u.newSha) } := by
  rw [Repo.exec_push]
  constructor
  · rintro ⟨refs, happly, rfl⟩
    obtain ⟨hfound, hrefs⟩ := CasMap.applyAll_update_cons.mp happly
    cases hrefs
    exact ⟨hfound, rfl⟩
  · rintro ⟨hfound, rfl⟩
    exact ⟨_, CasMap.applyAll_update_cons.mpr ⟨hfound, rfl⟩, rfl⟩

/-! ## Histories -/

def sinceClear (txs : List Tx) : List Tx :=
  txs.foldl (fun acc tx => if tx.call = .clearStorage then [] else acc ++ [tx]) []

def packLog (txs : List Tx) : List Bytes := txs.flatMap fun tx => tx.call.packs

def refLog (txs : List Tx) : List RefUpdate := txs.flatMap fun tx => tx.call.refUpdates

def eventLog (txs : List Tx) : List (CasMap.Event String String) :=
  txs.flatMap fun tx => tx.call.events

def foldRefs (updates : List RefUpdate) : String → Option String :=
  updates.foldl (fun refs u => Function.update refs u.name (some u.newSha)) fun _ => none

theorem sinceClear_concat (txs : List Tx) (tx : Tx) : sinceClear (txs ++ [tx]) =
    if tx.call = .clearStorage then [] else sinceClear txs ++ [tx] := by
  rw [sinceClear, List.foldl_append]
  rfl

theorem sinceClear_append_of_ne (txs : List Tx) {txs' : List Tx}
    (h : ∀ tx ∈ txs', tx.call ≠ .clearStorage) :
    sinceClear (txs ++ txs') = sinceClear txs ++ txs' := by
  induction txs' using List.reverseRecOn with
  | nil => rw [List.append_nil, List.append_nil]
  | append_singleton txs' tx ih =>
    have hinit : ∀ tx ∈ txs', tx.call ≠ .clearStorage := fun tx htx =>
      h tx (List.mem_append_left _ htx)
    have hlast : tx.call ≠ .clearStorage := h tx (List.mem_append_right _ (List.mem_singleton_self _))
    rw [← List.append_assoc, sinceClear_concat, if_neg hlast, ih hinit, List.append_assoc]

theorem sinceClear_append_of_clear (txs : List Tx) {txs' : List Tx}
    (h : ∃ tx ∈ txs', tx.call = .clearStorage) : sinceClear (txs ++ txs') = sinceClear txs' := by
  induction txs' using List.reverseRecOn with
  | nil =>
    obtain ⟨tx, htx, -⟩ := h
    exact absurd htx List.not_mem_nil
  | append_singleton txs' tx ih =>
    rw [← List.append_assoc, sinceClear_concat, sinceClear_concat]
    split_ifs with hlast
    · rfl
    · have hinit : ∃ tx ∈ txs', tx.call = .clearStorage := by
        obtain ⟨tx', htx', hclear⟩ := h
        rcases List.mem_append.mp htx' with htx' | htx'
        · exact ⟨tx', htx', hclear⟩
        · rw [List.mem_singleton.mp htx'] at hclear
          exact absurd hclear hlast
      rw [ih hinit]

theorem clearStorage_notMem_sinceClear (txs : List Tx) :
    ∀ tx ∈ sinceClear txs, tx.call ≠ .clearStorage := by
  induction txs using List.reverseRecOn with
  | nil => simp [sinceClear]
  | append_singleton txs tx ih =>
    rw [sinceClear_concat]
    split_ifs with h
    · simp
    · intro tx' htx'
      rcases List.mem_append.mp htx' with htx' | htx'
      · exact ih tx' htx'
      · rw [List.mem_singleton.mp htx']
        exact h

theorem Call.events_of_ne {call : Call} (h : call ≠ .clearStorage) :
    call.events = call.refUpdates.map fun u => .update u.toUpdate := by
  cases call <;> first | rfl | exact absurd rfl h

theorem eventLog_sinceClear (txs : List Tx) :
    eventLog (sinceClear txs) = (refLog (sinceClear txs)).map fun u => .update u.toUpdate := by
  rw [eventLog, refLog, List.map_flatMap]
  exact List.flatMap_congr fun tx htx =>
    Call.events_of_ne (clearStorage_notMem_sinceClear txs tx htx)

theorem Call.update_mem_events {call : Call} {x : CasMap.Update String String} :
    .update x ∈ call.events ↔ ∃ u ∈ call.refUpdates, u.toUpdate = x := by
  cases call <;> simp [Call.events, Call.refUpdates]

theorem Call.clear_mem_events {call : Call} : .clear ∈ call.events ↔ call = .clearStorage := by
  cases call <;> simp [Call.events, Call.refUpdates]

theorem update_mem_eventLog {txs : List Tx} {x : CasMap.Update String String} :
    .update x ∈ eventLog txs ↔ ∃ u ∈ refLog txs, u.toUpdate = x := by
  simp only [eventLog, refLog, List.mem_flatMap, Call.update_mem_events]
  constructor
  · rintro ⟨tx, htx, u, hu, rfl⟩
    exact ⟨u, ⟨tx, htx, hu⟩, rfl⟩
  · rintro ⟨u, ⟨tx, htx, hu⟩, rfl⟩
    exact ⟨tx, htx, u, hu, rfl⟩

theorem update_mem_map {us : List RefUpdate} {x : CasMap.Update String String} :
    CasMap.Event.update x ∈ us.map (fun u => .update u.toUpdate) ↔
      ∃ u ∈ us, u.toUpdate = x := by
  simp only [List.mem_map, CasMap.Event.update.injEq]

theorem update_mem_append {us vs : List RefUpdate} {txs : List Tx}
    {x : CasMap.Update String String} :
    CasMap.Event.update x ∈ us.map (fun u => .update u.toUpdate) ++ eventLog txs ++
        vs.map (fun u => .update u.toUpdate) ↔
      ∃ u ∈ us ++ refLog txs ++ vs, u.toUpdate = x := by
  simp only [List.mem_append, update_mem_map, update_mem_eventLog, or_and_right, exists_or]

theorem clear_mem_eventLog {txs : List Tx} :
    .clear ∈ eventLog txs ↔ ∃ tx ∈ txs, tx.call = .clearStorage := by
  simp only [eventLog, List.mem_flatMap, Call.clear_mem_events]

/-! ## Refinement -/

/-- The stores hold the log under the indices below the count, and the refs. -/
structure GitStorage.Represents (s : GitStorage) (r : Repo) : Prop where
  packs : ∀ i, s.packs.lookup i = r.log[i]?
  packCount : s.packCount = r.log.length
  refs : ∀ name, s.refs.get name = r.refs name

theorem represents_new (signer : String) : (GitStorage.new signer).Represents .empty where
  packs _ := rfl
  packCount := rfl
  refs _ := rfl

section Represents
variable {s s' : GitStorage} {r : Repo}

theorem GitStorage.Represents.mem_packs (h : s.Represents r) (i : Nat) :
    i ∈ s.packs ↔ i < s.packCount := by
  rw [← AList.lookup_isSome, h.packs, h.packCount]
  simp

theorem filterMap_range'_getElem? {α : Type*} (l : List α) (i : Nat) :
    (List.range' i (l.length - i)).filterMap (fun j => l[j]?) = l.drop i := by
  induction hn : l.length - i generalizing i with
  | zero => rw [List.drop_eq_nil_of_le (by omega), List.range'_zero, List.filterMap_nil]
  | succ n ih =>
    have hi : i < l.length := by omega
    rw [List.range'_succ, List.filterMap_cons, List.getElem?_eq_getElem hi, ih (i + 1) (by omega),
      List.drop_eq_getElem_cons hi]

theorem GitStorage.Represents.getPacks (h : s.Represents r) (fromIndex : Nat) :
    s.getPacks fromIndex = r.log.drop fromIndex := by
  rw [GitStorage.getPacks, h.packCount, funext h.packs, filterMap_range'_getElem?]

theorem GitStorage.Represents.mem_getRefs (h : s.Represents r) (name sha : String) :
    (name, sha) ∈ s.getRefs ↔ r.refs name = some sha := by
  rw [GitStorage.getRefs, IterableMap.mem_entries, h.refs]

theorem storePack_represents (h : s.Represents r) {packData : Bytes}
    (hstore : s.storePack packData = .ok s') :
    s'.Represents { r with log := r.log ++ if packData = [] then [] else [packData] } ∧
      s'.owner = s.owner := by
  rcases GitStorage.storePack_eq_ok.mp hstore with ⟨rfl, rfl⟩ | ⟨hne, -, rfl⟩
  · rw [if_pos rfl, List.append_nil]
    exact ⟨h, rfl⟩
  · rw [if_neg hne]
    refine ⟨⟨fun i => ?_, by simp [h.packCount], h.refs⟩, rfl⟩
    simp only [h.packCount]
    rcases eq_or_ne i r.log.length with rfl | hi
    · rw [AList.lookup_insert, List.getElem?_concat_length]
    · rw [AList.lookup_insert_ne hi, h.packs]
      rcases Nat.lt_or_gt_of_ne hi with hlt | hgt
      · rw [List.getElem?_append_left hlt]
      · rw [List.getElem?_eq_none (by omega), List.getElem?_eq_none (by simp; omega)]

theorem applyUpdate_represents (h : s.Represents r) {u : RefUpdate}
    (hupdate : s.applyUpdate u = .ok s') :
    ∃ refs, CasMap.Event.apply r.refs (.update u.toUpdate) = some refs ∧
      s'.Represents { r with refs } ∧ s'.owner = s.owner := by
  obtain ⟨hcur, rfl⟩ := GitStorage.applyUpdate_eq_ok.mp hupdate
  rw [h.refs] at hcur
  refine ⟨_, if_pos hcur, ⟨h.packs, h.packCount, fun name => ?_⟩, rfl⟩
  rcases eq_or_ne name u.name with rfl | hne
  · rw [IterableMap.get_insert_self]
    simp [RefUpdate.toUpdate]
  · rw [IterableMap.get_insert_of_ne _ hne, h.refs]
    simp [RefUpdate.toUpdate, hne]

theorem applyUpdates_represents {us : List RefUpdate} (h : s.Represents r)
    (hupdates : us.foldlM GitStorage.applyUpdate s = .ok s') :
    ∃ refs, CasMap.applyAll r.refs (us.map fun u => .update u.toUpdate) = some refs ∧
      s'.Represents { r with refs } ∧ s'.owner = s.owner := by
  induction us generalizing s r with
  | nil =>
    cases hupdates
    exact ⟨r.refs, rfl, h, rfl⟩
  | cons u us ih =>
    rw [List.foldlM_cons, except_bind_eq_ok] at hupdates
    obtain ⟨s₁, hu, hupdates⟩ := hupdates
    obtain ⟨refs, happly, h₁, howner⟩ := applyUpdate_represents h hu
    obtain ⟨refs', hall, h', howner'⟩ := ih h₁ hupdates
    refine ⟨refs', ?_, h', howner'.trans howner⟩
    rw [List.map_cons, CasMap.applyAll, List.foldlM_cons, happly]
    exact hall

theorem foldl_erase_eq_empty {α : Type*} [DecidableEq α] {β : α → Type*} {ks : List α}
    {m : AList β} (h : ∀ k ∈ m, k ∈ ks) : ks.foldl (fun m k => m.erase k) m = ∅ := by
  induction ks generalizing m with
  | nil =>
    have hkeys : m.keys = [] := List.eq_nil_iff_forall_not_mem.mpr fun k hk =>
      absurd (h k (AList.mem_keys.mpr hk)) List.not_mem_nil
    exact AList.ext (List.map_eq_nil_iff.mp hkeys)
  | cons k ks ih =>
    refine ih fun k' hk' => ?_
    obtain ⟨hne, hmem⟩ := AList.mem_erase.mp hk'
    exact (List.mem_cons.mp (h k' hmem)).resolve_left hne

theorem clearStorage_eq_new (h : s.Represents r) {predecessor : String}
    (hclear : s.clearStorage predecessor = .ok s') : s' = GitStorage.new s.owner := by
  obtain ⟨-, rfl⟩ := GitStorage.clearStorage_eq_ok.mp hclear
  rw [foldl_erase_eq_empty fun i hi => List.mem_range.mpr ((h.mem_packs i).mp hi),
    IterableMap.foldl_remove_eq_empty fun _ hk => hk]
  rfl

/-- Every call that is not refused is a step of the repository. -/
theorem exec_represents (h : s.Represents r) {tx : Tx} (hexec : s.exec tx = .ok s') :
    (∃ r', r.exec tx.call = some r' ∧ s'.Represents r') ∧ s'.owner = s.owner ∧
      (tx.call.Mutates → tx.predecessor = s.owner) := by
  obtain ⟨predecessor, call⟩ := tx
  cases call with
  | push packData us =>
    obtain ⟨howner, stored, hstore, hupdates⟩ := GitStorage.push_eq_ok.mp hexec
    obtain ⟨hstored, howner'⟩ := storePack_represents h hstore
    obtain ⟨refs, hall, h', howner''⟩ := applyUpdates_represents hstored hupdates
    refine ⟨⟨_, ?_, h'⟩, howner''.trans howner', fun _ => howner⟩
    simp only [Repo.exec, Call.events, Call.refUpdates, hall]
    rfl
  | clearStorage =>
    have hnew : s' = GitStorage.new s.owner := clearStorage_eq_new h hexec
    obtain ⟨howner, -⟩ := GitStorage.clearStorage_eq_ok.mp hexec
    exact ⟨⟨.empty, rfl, hnew ▸ represents_new _⟩, by rw [hnew]; rfl, fun _ => howner⟩
  | getRefs | getPackCount | getPacks _ | getOwner =>
    cases hexec
    refine ⟨⟨r, ?_, h⟩, rfl, fun hm => hm.elim⟩
    simp [Repo.exec, Call.events, Call.refUpdates, Call.packs, CasMap.applyAll]

end Represents

end NearGit.Contract
