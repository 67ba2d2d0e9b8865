import NearGit.GitServer.UploadPack
import NearGit.ServiceWorker.PushLoss

/-! The two upload-pack servers side by side. The service worker queues the deltas of all packs;
git-server resolves each pack before it looks at the next one. -/

namespace NearGit.GitServer
open Lib NearGit.Packfile
open NearGit.ServiceWorker (Known Advances AppliesOn Views collectObjects)

variable {C : Crates}

/-! ## What the packs give one after the other -/

/-- A pack has its own objects and what the packs before it gave to work with. -/
def inOrder (C : Crates) (packs : List Bytes) : Set PackObject :=
  packs.foldl (fun S pack => {o | ReconstructibleWith C [pack] S o}) ∅

theorem inOrder_concat (packs : List Bytes) (pack : Bytes) :
    inOrder C (packs ++ [pack]) = {o | ReconstructibleWith C [pack] (inOrder C packs) o} := by
  rw [inOrder, List.foldl_append]
  rfl

theorem inOrder_subset (packs : List Bytes) :
    inOrder C packs ⊆ {o | Reconstructible C packs o} := by
  induction packs using List.reverseRecOn with
  | nil => exact Set.empty_subset _
  | append_singleton packs pack ih =>
    rw [inOrder_concat]
    intro o ho
    refine Derived.of_seeds ?_ (parsedDeltas_mono (List.subset_append_right ..)) ho
    rintro a (ha | ha)
    · exact .seed (parsedObjects_mono (List.subset_append_right ..) ha)
    · exact Reconstructible.mono (List.subset_append_left ..) (ih ha)

theorem inOrder_take_subset (packs : List Bytes) (i : Nat) :
    inOrder C (packs.take i) ⊆ inOrder C packs := by
  induction packs using List.reverseRecOn with
  | nil => rw [List.take_nil]
  | append_singleton packs pack ih =>
    rcases le_or_gt i packs.length with hle | hgt
    · rw [List.take_append_of_le_length hle, inOrder_concat]
      exact fun o ho => .seed (.inr (ih ho))
    · rw [List.take_of_length_le (by simp; omega)]

/-! ## The loops of git-server -/

def Merged.known (merged : Merged) : Known where
  map := merged.localMap
  objects := merged.allObjects

theorem Merged.consistent_add {merged : Merged} (h : merged.known.Consistent C)
    (obj : PackObject) : (merged.add C obj).known.Consistent C := by
  constructor
  · intro sha o ho
    rcases eq_or_ne sha (obj.sha1 C) with rfl | hne
    · have hobj : some obj = some o := by simpa [Merged.known, Merged.add] using ho
      cases hobj
      exact ⟨List.mem_append_right _ (List.mem_singleton_self _), rfl⟩
    · have ho : merged.known.map sha = some o := by simpa [Merged.known, Merged.add, hne] using ho
      obtain ⟨hmem, hsha⟩ := h.mem sha o ho
      exact ⟨List.mem_append_left _ hmem, hsha⟩
  · intro o ho
    rcases eq_or_ne (o.sha1 C) (obj.sha1 C) with heq | hne
    · exact ⟨obj, by simp [Merged.known, Merged.add, heq]⟩
    · have hmem : o ∈ merged.known.objects := by
        rcases List.mem_append.mp ho with ho | ho
        · exact ho
        · exact absurd (congrArg _ (List.mem_singleton.mp ho)) hne
      obtain ⟨other, hother⟩ := h.found o hmem
      exact ⟨other, by simpa [Merged.known, Merged.add, hne] using hother⟩

theorem Merged.advances_add {merged : Merged} (hcons : merged.known.Consistent C)
    {delta : UnresolvedDelta} {base obj : PackObject}
    (hmap : merged.localMap delta.baseSha = some base) (happly : delta.applyTo .w64 base = .ok obj)
    (pending : List UnresolvedDelta) :
    Advances C (delta :: pending) merged.known pending (merged.add C obj).known := by
  have hmem (o : PackObject) (ho : o ∈ (merged.add C obj).known.objects) :
      o ∈ merged.known.objects ∨ o = obj :=
    (List.mem_append.mp ho).imp_right List.mem_singleton.mp
  have hobj : obj ∈ (merged.add C obj).known.objects :=
    List.mem_append_right _ (List.mem_singleton_self _)
  exact (Advances.refl hcons pending).splice_of hmap happly (Merged.consistent_add hcons obj)
    (List.subset_append_left ..) hmem ⟨obj, hobj, rfl⟩

/-- One `retain` advances. Without progress nothing has a base; with progress there are fewer
deltas, unless there had been some already. -/
theorem retainPass_advances {pending : List UnresolvedDelta} {merged : Merged}
    {S : Set PackObject} (hcons : merged.known.Consistent C)
    (hS : ∀ o ∈ merged.allObjects, o ∈ S) (happlies : AppliesOn C pending S) (progress : Bool) :
    ∃ kept progress' merged', retainPass C pending progress merged =
        .ok (kept, progress', merged') ∧
      Advances C pending merged.known kept merged'.known ∧
      (progress' = false → progress = false ∧ kept = pending ∧ merged' = merged ∧
        ∀ d ∈ pending, merged.localMap d.baseSha = none) ∧
      (progress' = true → progress = true ∨ kept.length < pending.length) := by
  induction pending generalizing merged progress with
  | nil => exact ⟨[], progress, merged, rfl, .refl hcons [], by simp, .inl⟩
  | cons delta pending ih =>
    have happlies' : AppliesOn C pending S := fun d hd => happlies d (List.mem_cons_of_mem _ hd)
    rcases hmap : merged.localMap delta.baseSha with _ | base
    · obtain ⟨kept, progress', merged', hpass, hadv, hstuck, hless⟩ :=
        ih hcons hS happlies' progress
      refine ⟨delta :: kept, progress', merged', ?_, hadv.keep delta, fun hfalse => ?_,
        fun htrue => ?_⟩
      · simp only [retainPass, hmap]
        rw [hpass]
        rfl
      · obtain ⟨hprogress, rfl, rfl, hnone⟩ := hstuck hfalse
        exact ⟨hprogress, rfl, rfl, List.forall_mem_cons.mpr ⟨hmap, hnone⟩⟩
      · exact (hless htrue).imp_right Nat.succ_lt_succ
    · obtain ⟨hbase, hsha⟩ := hcons.mem _ _ hmap
      obtain ⟨obj, hobj, happly⟩ :=
        happlies delta (List.mem_cons_self ..) base (hS base hbase) hsha
      have hcons' := Merged.consistent_add hcons obj
      have hS' : ∀ o ∈ (merged.add C obj).allObjects, o ∈ S := by
        intro o ho
        rcases List.mem_append.mp ho with ho | ho
        · exact hS o ho
        · exact List.mem_singleton.mp ho ▸ hobj
      obtain ⟨kept, progress', merged', hpass, hadv, hstuck, -⟩ := ih hcons' hS' happlies' true
      have hsplice := Merged.advances_add hcons hmap happly pending
      refine ⟨kept, progress', merged', ?_, hsplice.trans hadv, fun hfalse => ?_, fun _ => .inr ?_⟩
      · simp only [retainPass, hmap, happly]
        exact hpass
      · exact absurd (hstuck hfalse).1 (by decide)
      · exact Nat.lt_succ_of_le hadv.sublist.length_le

theorem resolvePending_advances {pending : List UnresolvedDelta} {merged : Merged}
    {S : Set PackObject} (hcons : merged.known.Consistent C)
    (hS : ∀ o ∈ merged.allObjects, o ∈ S) (happlies : AppliesOn C pending S) :
    ∃ kept merged', resolvePending C pending merged = .ok merged' ∧
      Advances C pending merged.known kept merged'.known ∧
      ∀ d ∈ kept, merged'.localMap d.baseSha = none := by
  induction hn : pending.length using Nat.strong_induction_on generalizing pending merged with
  | _ n ih =>
    subst hn
    rw [resolvePending]
    split_ifs with hnil
    · subst hnil
      exact ⟨[], merged, rfl, .refl hcons [], by simp⟩
    · obtain ⟨kept, progress, merged', hpass, hadv, hstuck, hless⟩ :=
        retainPass_advances hcons hS happlies false
      rw [hpass, Outcome.ok_bind]
      cases progress with
      | false =>
        obtain ⟨-, rfl, rfl, hnone⟩ := hstuck rfl
        exact ⟨kept, merged', rfl, hadv, hnone⟩
      | true =>
        have hlt : kept.length < pending.length := (hless rfl).resolve_left (by decide)
        have hS' : ∀ o ∈ merged'.allObjects, o ∈ S := hadv.sound S happlies.closedUnder hS
        obtain ⟨kept', merged'', hrun, hadv', hnone⟩ := ih _ hlt hadv.consistent hS'
          (fun d hd => happlies d (hadv.sublist.subset hd)) rfl
        simp only [if_true, hlt]
        exact ⟨kept', merged'', hrun, hadv.trans hadv', hnone⟩

theorem mergePack_mem_iff {all : List PackObject} {pack : Bytes} {r : ParseResult}
    {S : Set PackObject} (hr : parse .w64 C pack = .ok r) (hinj : Set.InjOn (PackObject.sha1 C) S)
    (hall : ∀ o ∈ all, o ∈ S) (hobjects : ∀ o ∈ r.objects, o ∈ S)
    (happlies : AppliesOn C r.deltas S) :
    ∃ all', mergePack C all pack = .ok all' ∧ (∀ o ∈ all', o ∈ S) ∧
      ∀ o, o ∈ all' ↔ ReconstructibleWith C [pack] {o | o ∈ all} o := by
  let merged : Merged :=
    { localMap := shaMap C (all ++ r.objects), allObjects := all ++ r.objects }
  have hcons : merged.known.Consistent C := ServiceWorker.consistent_shaMap (all ++ r.objects)
  have hS : ∀ o ∈ merged.allObjects, o ∈ S := by
    intro o ho
    rcases List.mem_append.mp ho with ho | ho
    · exact hall o ho
    · exact hobjects o ho
  obtain ⟨kept, merged', hrun, hadv, hnone⟩ := resolvePending_advances hcons hS happlies
  have hsound : ∀ o ∈ merged'.allObjects, o ∈ S := hadv.sound S happlies.closedUnder hS
  have hseeds (o : PackObject) : o ∈ merged.known.objects ↔
      o ∈ parsedObjects C [pack] ∪ {o | o ∈ all} := by
    rw [Set.mem_union, mem_parsedObjects_singleton hr, or_comm]
    exact List.mem_append
  have hsat := hadv.saturated hnone (fun o ho => (hseeds o).mp ho)
    (fun o ho => ⟨o, (hseeds o).mpr ho, rfl⟩) (fun d => (mem_parsedDeltas_singleton hr).symm)
  have hderived : {o | ReconstructibleWith C [pack] {o | o ∈ all} o} ⊆ S := by
    intro o ho
    refine Derived.mem_of_closed ?_ ?_ ho
    · exact fun a ha => hS a ((hseeds a).mpr ha)
    · intro d hd base hbase obj hsha hfire
      rw [mem_parsedDeltas_singleton hr] at hd
      exact happlies.closedUnder d hd base hbase hsha obj (Outcome.toOption_eq_some.mp hfire)
  refine ⟨merged'.allObjects, ?_, hsound, hsat.mem_iff (hinj.mono hderived)⟩
  simp only [mergePack, hr]
  rw [hrun]
  rfl

theorem allObjects_mem_iff {packs : List Bytes} {S : Set PackObject}
    (hparse : ∀ pack ∈ packs, ∃ r, parse .w64 C pack = .ok r)
    (hinj : Set.InjOn (PackObject.sha1 C) S) (hobjects : ∀ o ∈ parsedObjects C packs, o ∈ S)
    (happlies : ∀ d ∈ parsedDeltas C packs, ∀ base ∈ S, base.sha1 C = d.baseSha →
      ∃ obj ∈ S, d.applyTo .w64 base = .ok obj) :
    ∃ all, allObjects C packs = .ok all ∧ (∀ o ∈ all, o ∈ S) ∧
      ∀ o, o ∈ all ↔ o ∈ inOrder C packs := by
  induction packs using List.reverseRecOn with
  | nil => exact ⟨[], rfl, by simp, fun o => by simp [inOrder]⟩
  | append_singleton packs pack ih =>
    have hleft : packs ⊆ packs ++ [pack] := List.subset_append_left ..
    obtain ⟨all, hrun, hall, hmem⟩ := ih (fun p hp => hparse p (hleft hp))
      (fun o ho => hobjects o (parsedObjects_mono hleft ho))
      (fun d hd => happlies d (parsedDeltas_mono hleft hd))
    obtain ⟨r, hr⟩ := hparse pack (by simp)
    have hright : [pack] ⊆ packs ++ [pack] := List.subset_append_right ..
    have hobjects' : ∀ o ∈ r.objects, o ∈ S := fun o ho =>
      hobjects o (parsedObjects_mono hright ((mem_parsedObjects_singleton hr).mpr ho))
    have happlies' : AppliesOn C r.deltas S := fun d hd =>
      happlies d (parsedDeltas_mono hright ((mem_parsedDeltas_singleton hr).mpr hd))
    obtain ⟨all', hmerge, hall', hmem'⟩ := mergePack_mem_iff hr hinj hall hobjects' happlies'
    refine ⟨all', ?_, hall', fun o => ?_⟩
    · rw [allObjects, List.foldlM_append, ← allObjects, hrun, Outcome.ok_bind]
      simp [hmerge]
    · rw [hmem', inOrder_concat, show {o | o ∈ all} = inOrder C packs from Set.ext hmem]
      rfl

/-! ## Where the two agree -/

/-- A delta that can be applied at all has its base among what its own pack and the packs before
it give, which then give its object, or its object is had without it. -/
def BasesInOrder (C : Crates) (packs : List Bytes) : Prop :=
  ∀ (i : Nat) (pack : Bytes), packs[i]? = some pack → ∀ d ∈ parsedDeltas C [pack],
    ∀ base o, Reconstructible C packs base → base.sha1 C = d.baseSha → d.applyTo .w64 base = .ok o →
      base ∈ inOrder C (packs.take (i + 1)) ∨ o ∈ inOrder C packs

/-- Where every base is stored before it is needed, the order of the packs does no harm. -/
theorem basesInOrder_of_before {packs : List Bytes}
    (h : ∀ (i : Nat) (pack : Bytes), packs[i]? = some pack → ∀ d ∈ parsedDeltas C [pack],
      ∀ base, Reconstructible C packs base → base.sha1 C = d.baseSha →
        base ∈ inOrder C (packs.take (i + 1))) : BasesInOrder C packs :=
  fun i pack hi d hd base _ hbase hsha _ => .inl (h i pack hi d hd base hbase hsha)

theorem parsedObjects_subset_inOrder (packs : List Bytes) :
    parsedObjects C packs ⊆ inOrder C packs := by
  induction packs using List.reverseRecOn with
  | nil => simp [parsedObjects, inOrder]
  | append_singleton packs pack ih =>
    intro o ho
    rw [inOrder_concat]
    rcases mem_parsedObjects_append.mp ho with ho | ho
    · exact .seed (.inr (ih ho))
    · exact .seed (.inl ho)

theorem inOrder_eq_iff (packs : List Bytes) :
    inOrder C packs = {o | Reconstructible C packs o} ↔ BasesInOrder C packs := by
  constructor
  · intro heq i pack hi d hd base o hbase hsha happly
    have hpack : [pack] ⊆ packs :=
      List.cons_subset.mpr ⟨List.mem_of_getElem? hi, List.nil_subset _⟩
    have ho : Reconstructible C packs o :=
      .rule (parsedDeltas_mono hpack hd) hbase hsha (Outcome.toOption_eq_some.mpr happly)
    exact .inr (heq ▸ ho)
  · intro h
    refine Set.Subset.antisymm (inOrder_subset packs) fun o ho => ?_
    induction ho with
    | seed hseed => exact parsedObjects_subset_inOrder packs hseed
    | @rule d base o hd hbase hsha hfire ih =>
      obtain ⟨pack, hpack, r, hr, hd⟩ := hd
      obtain ⟨i, hi⟩ := List.mem_iff_getElem?.mp hpack
      have hd' : d ∈ parsedDeltas C [pack] := (mem_parsedDeltas_singleton hr).mpr hd
      rcases h i pack hi d hd' base o hbase hsha (Outcome.toOption_eq_some.mp hfire) with hin | ho
      · -- the base is there when git-server comes to the pack
        apply inOrder_take_subset packs (i + 1)
        rw [List.take_add_one, hi, Option.toList_some, inOrder_concat] at hin ⊢
        exact .rule hd' hin hsha hfire
      · exact ho

/-- The two servers send the same objects exactly when no object needs a base from a later
pack. -/
theorem uploads_agree_iff (C : Crates) (wants : List String) (views : Views) (pack : Bytes)
    (hok : ServiceWorker.handleUploadPack C wants views = .ok (some pack))
    (hinj : Set.InjOn (PackObject.sha1 C) {o | Reconstructible C views.existingPacks o}) :
    ∃ pendingDeltas known all,
      collectObjects C views.existingPacks = .ok (pendingDeltas, known) ∧
      ServiceWorker.buildPackfile C known.objects = .ok pack ∧
      allObjects C views.existingPacks = .ok all ∧
      handleUploadPack C views.existingPacks = build .w64 C all ∧
      ((∀ o, o ∈ all ↔ o ∈ known.objects) ↔ BasesInOrder C views.existingPacks) := by
  unfold ServiceWorker.handleUploadPack at hok
  split_ifs at hok with hwants hcount
  · cases hok
  · cases hok
  obtain ⟨⟨pendingDeltas, known⟩, hcollect, hok⟩ := Outcome.bind_eq_ok.mp hok
  obtain ⟨pack', hbuild, hok⟩ := Outcome.bind_eq_ok.mp hok
  cases hok
  obtain ⟨hparse, happlies⟩ := ServiceWorker.collectObjects_applies hcollect hinj
  have hmem := ServiceWorker.collectObjects_mem_iff hcollect hinj
  obtain ⟨all, hall, -, hmemAll⟩ := allObjects_mem_iff hparse hinj (fun o ho => .seed ho) happlies
  refine ⟨pendingDeltas, known, all, hcollect, hbuild, hall, ?_, ?_⟩
  · rw [handleUploadPack, hall, Outcome.ok_bind]
  · rw [← inOrder_eq_iff, Set.ext_iff]
    exact forall_congr' fun o => by rw [hmemAll, hmem]; rfl

/-! ## A base that comes later -/

open NearGit.ServiceWorker (storedPack thinPack parse_storedPack parse_thinPack)

def laterBase : Views where
  packCount := 2
  existingPacks := [thinPack, storedPack]

def wantedBlob : String := (sampleBlob 40 2).sha1 referenceCrates

theorem collectObjects_laterBase : ∃ pendingDeltas known,
    collectObjects referenceCrates laterBase.existingPacks = .ok (pendingDeltas, known) ∧
      known.objects = [sampleBlob 40 1, sampleBlob 40 2] := by
  have hrun : (collectObjects referenceCrates laterBase.existingPacks).toOption.map
      (fun r => r.2.objects) = some [sampleBlob 40 1, sampleBlob 40 2] := by
    decide +kernel
  obtain ⟨⟨pendingDeltas, known⟩, hcollect, hobjects⟩ := Option.map_eq_some_iff.mp hrun
  exact ⟨pendingDeltas, known, Outcome.toOption_eq_some.mp hcollect, hobjects⟩

theorem upload_laterBase : ∃ pack,
    ServiceWorker.handleUploadPack referenceCrates [wantedBlob] laterBase = .ok (some pack) := by
  obtain ⟨pendingDeltas, known, hcollect, hobjects⟩ := collectObjects_laterBase
  have hbases : ∀ o ∈ ([] : List PackObject), o.data.length < 2 ^ 32 := nofun
  have hobjects' : ∀ o ∈ [sampleBlob 40 1, sampleBlob 40 2], o.data.length < 2 ^ 32 := by decide
  obtain ⟨pack, -, -, hbuild, -⟩ :=
    parse_buildWithBases referenceCrates_zlib (by decide) hobjects' hbases (by decide)
  have hfits : ServiceWorker.Fits [sampleBlob 40 1, sampleBlob 40 2] ∧ ServiceWorker.Fits [] := by
    decide +kernel
  refine ⟨pack, ?_⟩
  have hbuilt : ServiceWorker.buildPackfile referenceCrates known.objects = .ok pack := by
    rw [hobjects, ServiceWorker.buildPackfile, ServiceWorker.buildPackfileWithBases, if_pos hfits,
      hbuild]
  rw [ServiceWorker.handleUploadPack, if_neg (by simp), if_neg (by decide), hcollect,
    Outcome.ok_bind]
  simp [hbuilt]

theorem allObjects_laterBase :
    allObjects referenceCrates laterBase.existingPacks = .ok [sampleBlob 40 1] := by
  decide +kernel

theorem injOn_laterBase : Set.InjOn (PackObject.sha1 referenceCrates)
    {o | Reconstructible referenceCrates laterBase.existingPacks o} := by
  refine ServiceWorker.injOn_thinPack.mono fun o ho => Reconstructible.mono ?_ ho
  rw [ServiceWorker.getPacks_blobContract]
  exact (List.Perm.swap storedPack thinPack []).subset

/-- The service worker sends the blob of the thin pack, git-server leaves it out. -/
theorem base_in_later_pack_dropped : ∃ pack pendingDeltas known all,
    ServiceWorker.handleUploadPack referenceCrates [wantedBlob] laterBase = .ok (some pack) ∧
    Set.InjOn (PackObject.sha1 referenceCrates)
      {o | Reconstructible referenceCrates laterBase.existingPacks o} ∧
    collectObjects referenceCrates laterBase.existingPacks = .ok (pendingDeltas, known) ∧
    ServiceWorker.buildPackfile referenceCrates known.objects = .ok pack ∧
    allObjects referenceCrates laterBase.existingPacks = .ok all ∧
    handleUploadPack referenceCrates laterBase.existingPacks = build .w64 referenceCrates all ∧
    sampleBlob 40 2 ∈ known.objects ∧ sampleBlob 40 2 ∉ all := by
  obtain ⟨pack, hok⟩ := upload_laterBase
  obtain ⟨pendingDeltas, known, hcollect, hobjects⟩ := collectObjects_laterBase
  refine ⟨pack, pendingDeltas, known, _, hok, injOn_laterBase, hcollect, ?_, allObjects_laterBase,
    ?_, ?_, ?_⟩
  · rw [ServiceWorker.handleUploadPack, if_neg (by simp), if_neg (by decide), hcollect,
      Outcome.ok_bind] at hok
    obtain ⟨packData, hbuild, hpack⟩ := Outcome.bind_eq_ok.mp hok
    cases hpack
    exact hbuild
  · rw [handleUploadPack, allObjects_laterBase, Outcome.ok_bind]
  · rw [hobjects]
    decide
  · decide

theorem uploads_agree_iff_laterBase : ∃ pack pendingDeltas known all,
    ServiceWorker.handleUploadPack referenceCrates [wantedBlob] laterBase = .ok (some pack) ∧
    collectObjects referenceCrates laterBase.existingPacks = .ok (pendingDeltas, known) ∧
    ServiceWorker.buildPackfile referenceCrates known.objects = .ok pack ∧
    allObjects referenceCrates laterBase.existingPacks = .ok all ∧
    handleUploadPack referenceCrates laterBase.existingPacks = build .w64 referenceCrates all ∧
    ((∀ o, o ∈ all ↔ o ∈ known.objects) ↔
      BasesInOrder referenceCrates laterBase.existingPacks) := by
  obtain ⟨pack, hok⟩ := upload_laterBase
  obtain ⟨pendingDeltas, known, all, h⟩ :=
    uploads_agree_iff referenceCrates [wantedBlob] laterBase pack hok injOn_laterBase
  exact ⟨pack, pendingDeltas, known, all, hok, h⟩

end NearGit.GitServer
