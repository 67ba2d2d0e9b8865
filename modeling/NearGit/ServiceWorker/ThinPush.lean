import NearGit.ServiceWorker.PushLoss

/-! A thin pack between the views it was made from and its push. The contract compares refs
only, so what keeps the bases in place is that nothing was cleared, or that a compared ref
would show it. -/

namespace NearGit.ServiceWorker
open Lib NearGit.Packfile NearGit.Contract

variable {C : Crates}

/-- The incoming objects that the handler takes to be stored already. -/
def LeftOut (C : Crates) (views : Views) (rest : Bytes) (o : PackObject) : Prop :=
  ∃ newObjects pending bases, incomingObjects C rest = .ok newObjects ∧ 0 < views.packCount ∧
    collectObjects C views.existingPacks = .ok (pending, bases) ∧
    o ∈ newObjects ∧ o ∉ filterNew C bases.map newObjects

/-- Nothing was cleared by the transactions `between`, or one of the updates expects a value that
neither they nor the updates before it have written back since the last clear. -/
def StillGuarded (between : List Tx) (refUpdates : List RefUpdate) : Prop :=
  (∀ tx ∈ between, tx.call ≠ .clearStorage) ∨
    ∃ l u r old, refUpdates = l ++ u :: r ∧ u.oldSha = some old ∧
      ∀ x ∈ refLog (sinceClear between) ++ l, x.name = u.name → x.newSha ≠ old

/-! ## The pack and the packs that were read -/

theorem packData_basesStored {views : Views} {rest pack : Bytes} (hC : C.Zlib)
    (h : packData C views rest = .ok pack) : BasesStored C views.existingPacks pack := by
  obtain ⟨_, _, _, -, hpacked⟩ := packData_spec hC h
  exact hpacked.carries.basesStored hpacked.basesRead

theorem LeftOut.exists_sha1_eq {views : Views} {rest : Bytes} {o : PackObject}
    (h : LeftOut C views rest o) :
    ∃ b, Reconstructible C views.existingPacks b ∧ b.sha1 C = o.sha1 C := by
  obtain ⟨newObjects, pending, bases, -, -, hcollect, hmem, hleft⟩ := h
  obtain ⟨hcons, hsat⟩ := collectObjects_saturated hcollect
  rcases hmap : bases.map (o.sha1 C) with _ | b
  · exact absurd (List.mem_filter.mpr ⟨hmem, by simpa using hmap⟩) hleft
  · obtain ⟨hb, hsha⟩ := hcons.mem _ _ hmap
    exact ⟨b, hsat.sound b hb, hsha⟩

theorem LeftOut.incoming {views : Views} {rest : Bytes} {o : PackObject}
    (h : LeftOut C views rest o) : Reconstructible C [rest] o := by
  obtain ⟨newObjects, -, -, hnew, -, -, hmem, -⟩ := h
  exact (incomingObjects_saturated hnew).sound o hmem

/-! ## The push -/

theorem StillGuarded.isPrefix_getPacks {owner accountId : String} {before between : List Tx}
    {refUpdates : List RefUpdate} {pack : Bytes} {s' : GitStorage}
    (h : StillGuarded (Guarded.accepted GitStorage.exec (stateAfter owner before) between) refUpdates)
    (hpush : (stateAfter owner (before ++ between)).push accountId pack refUpdates = .ok s') :
    (stateAfter owner before).getPacks 0 <+: (stateAfter owner (before ++ between)).getPacks 0 := by
  rcases Classical.em (∃ tx ∈ Guarded.accepted GitStorage.exec (stateAfter owner before) between,
    tx.call = .clearStorage) with hclear | hnone
  · rcases h with hnone | ⟨l, u, r, old, rfl, hold, hwritten⟩
    · obtain ⟨tx, htx, hclear⟩ := hclear
      exact absurd hclear (hnone tx htx)
    · -- the clear removed the ref, so the push would have been refused
      obtain ⟨x, hx, hname, hvalue⟩ := exists_written hpush hold
      rw [recentTxs, acceptedTxs_append, sinceClear_append_of_clear _ hclear] at hx
      exact absurd hvalue (hwritten x hx hname)
  · apply Contract.isPrefix_getPacks
    intro tx htx hclear
    exact hnone ⟨tx, htx, hclear⟩

def readViews (owner : String) (beforeCount beforePacks : List Tx) : Views where
  packCount := (stateAfter owner beforeCount).getPackCount
  existingPacks := (stateAfter owner (beforeCount ++ beforePacks)).getPacks 0

/-- When a thin pack is accepted and still guarded, its bases are stored, and so are the objects
that were left out of it. -/
theorem thin_pack_bases_stored (C : Crates) (hC : C.Zlib) (owner : String)
    (beforeCount beforePacks between : List Tx) (accountId : String)
    (refUpdates : List RefUpdate) (rest pack : Bytes) (s' : GitStorage)
    (hpack : packData C (readViews owner beforeCount beforePacks) rest = .ok pack)
    (hpush : (stateAfter owner ((beforeCount ++ beforePacks) ++ between)).push accountId pack
      refUpdates = .ok s')
    (hguard : StillGuarded (Guarded.accepted GitStorage.exec
      (stateAfter owner (beforeCount ++ beforePacks)) between) refUpdates) :
    let log := (stateAfter owner ((beforeCount ++ beforePacks) ++ between)).getPacks 0
    let leftOut := LeftOut C (readViews owner beforeCount beforePacks) rest
    BasesStored C log pack ∧
    (∀ o, leftOut o → ∃ b, Reconstructible C log b ∧ b.sha1 C = o.sha1 C) ∧
    (Set.InjOn (PackObject.sha1 C) {o | Reconstructible C (log ++ [rest]) o} →
      ∀ o, leftOut o → Reconstructible C log o) := by
  intro log leftOut
  have hsub : (readViews owner beforeCount beforePacks).existingPacks ⊆ log :=
    (hguard.isPrefix_getPacks hpush).subset
  have hleft : ∀ o, leftOut o → ∃ b, Reconstructible C log b ∧ b.sha1 C = o.sha1 C := by
    intro o ho
    obtain ⟨b, hb, hsha⟩ := ho.exists_sha1_eq
    exact ⟨b, hb.mono hsub, hsha⟩
  refine ⟨fun d hd => ?_, hleft, fun hinj o ho => ?_⟩
  · obtain ⟨base, hbase, hsha⟩ := packData_basesStored hC hpack d hd
    exact ⟨base, hbase.mono hsub, hsha⟩
  · obtain ⟨b, hb, hsha⟩ := hleft o ho
    have hb' : Reconstructible C (log ++ [rest]) b := hb.mono (List.subset_append_left ..)
    have ho' : Reconstructible C (log ++ [rest]) o := ho.incoming.mono (List.subset_append_right ..)
    exact hinj hb' ho' hsha ▸ hb

/-! ## A clear in between -/

def aliceTx (call : Call) : Tx := { predecessor := "alice", call }

def createFeature : RefUpdate where
  name := "refs/heads/feature"
  oldSha := none
  newSha := "ce013625030ba8dba906f756967f9e9ca394464a"

def updateMain : RefUpdate where
  name := "refs/heads/main"
  oldSha := some createMain.newSha
  newSha := "ce013625030ba8dba906f756967f9e9ca394464a"

def storeMain : Tx := aliceTx (.push storedPack [createMain])

theorem packData_storeMain :
    packData referenceCrates (readViews "alice" [storeMain] []) secondPack = .ok thinPack := by
  have hpush : (GitStorage.new "alice").push "alice" storedPack [createMain] = .ok _ :=
    push_storedPack rfl
  have hstate : stateAfter "alice" [storeMain] = _ := stateAfter_push hpush
  rw [readViews, List.append_nil, hstate, getPacks_of_push_storedPack hpush]
  exact packData_secondPack

theorem not_basesStored_nil : ¬ BasesStored referenceCrates [] thinPack := by
  intro h
  obtain ⟨base, hbase, -⟩ := h thinDelta (mem_parsedDeltas_thinPack.mpr rfl)
  have hmem : base ∈ (∅ : Set PackObject) :=
    reconstructible_of_no_deltas (fun o ho => by simp [parsedObjects] at ho)
      (fun d hd => by simp [parsedDeltas] at hd) hbase
  exact hmem

def cleared : List Tx := [storeMain, aliceTx .clearStorage]

def restored : List Tx := [storeMain, aliceTx .clearStorage, aliceTx (.push [] [createMain])]

/-- After a clear, the thin pack is accepted without its base: with a new ref, and with an old
ref that was created again. -/
theorem push_after_clear_loses_bases :
    packData referenceCrates (readViews "alice" [storeMain] []) secondPack = .ok thinPack ∧
    (∃ s', (stateAfter "alice" cleared).push "alice" thinPack [createFeature] = .ok s' ∧
      ¬ BasesStored referenceCrates ((stateAfter "alice" cleared).getPacks 0) thinPack) ∧
    ∃ s', (stateAfter "alice" restored).push "alice" thinPack [updateMain] = .ok s' ∧
      ¬ BasesStored referenceCrates ((stateAfter "alice" restored).getPacks 0) thinPack := by
  have hempty : (stateAfter "alice" cleared).getPacks 0 = [] := by decide +kernel
  have hempty' : (stateAfter "alice" restored).getPacks 0 = [] := by decide +kernel
  have hcreate : ((stateAfter "alice" cleared).push "alice" thinPack
      [createFeature]).toOption.isSome = true := by
    decide +kernel
  have hupdate : ((stateAfter "alice" restored).push "alice" thinPack
      [updateMain]).toOption.isSome = true := by
    decide +kernel
  obtain ⟨s₁, h₁⟩ := except_exists_of_isSome hcreate
  obtain ⟨s₂, h₂⟩ := except_exists_of_isSome hupdate
  rw [hempty, hempty']
  exact ⟨packData_storeMain, ⟨s₁, h₁, not_basesStored_nil⟩, s₂, h₂, not_basesStored_nil⟩

theorem thin_pack_bases_stored_updateMain :
    BasesStored referenceCrates ((stateAfter "alice" (([storeMain] ++ []) ++
      [aliceTx (.push [] [createFeature])])).getPacks 0) thinPack := by
  have hrun : ((stateAfter "alice" (([storeMain] ++ []) ++
      [aliceTx (.push [] [createFeature])])).push "alice" thinPack [updateMain]).toOption.isSome =
        true := by
    decide +kernel
  obtain ⟨s', hpush⟩ := except_exists_of_isSome hrun
  have hguard : StillGuarded (Guarded.accepted GitStorage.exec
      (stateAfter "alice" ([storeMain] ++ [])) [aliceTx (.push [] [createFeature])])
      [updateMain] :=
    .inl (by decide +kernel)
  exact (thin_pack_bases_stored referenceCrates referenceCrates_zlib "alice" [storeMain] []
    [aliceTx (.push [] [createFeature])] "alice" [updateMain] secondPack thinPack s'
    packData_storeMain hpush hguard).1

end NearGit.ServiceWorker
