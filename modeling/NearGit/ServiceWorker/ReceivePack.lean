import NearGit.Contract.History
import NearGit.ServiceWorker.Resolve

/-! `handleReceivePack` and `handleUploadPack` of the service worker, from the decoded lines and
pack bytes on. A push resolves the incoming pack by itself, collects bases from the stored packs,
and stores what is not there yet as a thin pack. -/

namespace NearGit.ServiceWorker
open Lib NearGit.Packfile NearGit.Contract

/-! ## The WASM builders -/

def Fits (objects : List PackObject) : Prop :=
  objects.length < 2 ^ 32 ∧ ∀ o ∈ objects, o.data.length < 2 ^ 32

instance (objects : List PackObject) : Decidable (Fits objects) :=
  inferInstanceAs (Decidable (_ ∧ _))

/-- `build_packfile_with_bases`; it traps when it runs out of memory. -/
def buildPackfileWithBases (C : Crates) (objects bases : List PackObject) : Outcome Bytes :=
  if Fits objects ∧ Fits bases then buildWithBases .w64 C objects bases else .panic .capacityOverflow

def buildPackfile (C : Crates) (objects : List PackObject) : Outcome Bytes :=
  buildPackfileWithBases C objects []

/-! ## The handler -/

/-- `newObjects` after the deltas of the incoming pack are resolved inside it. -/
def incomingObjects (C : Crates) (rest : Bytes) : Outcome (List PackObject) := do
  let parseResult ← parse .w64 C rest
  let newObjects := parseResult.objects
  if parseResult.deltas = [] then return newObjects
  else
    let localMap := shaMap C newObjects
    -- the deltas that stay pending are not looked at again
    let (_, known) ← resolvePending C parseResult.deltas { map := localMap, objects := newObjects }
    return known.objects

structure Views where
  packCount : Nat
  existingPacks : List Bytes

def filterNew (C : Crates) (baseMap : String → Option PackObject) (newObjects : List PackObject) :
    List PackObject :=
  newObjects.filter fun obj => baseMap (obj.sha1 C) = none

def packFor (C : Crates) (views : Views) (newObjects : List PackObject) : Outcome Bytes :=
  if 0 < views.packCount then do
    let (_, bases) ← collectObjects C views.existingPacks
    buildPackfileWithBases C (filterNew C bases.map newObjects) bases.objects
  else buildPackfile C newObjects

def packData (C : Crates) (views : Views) (rest : Bytes) : Outcome Bytes := do
  let newObjects ← incomingObjects C rest
  packFor C views newObjects

inductive Report
  | ok
  | ng (error : ContractPanic)
deriving DecidableEq, Repr

/-- The handler, with nothing between its views and its push; without pack bytes nothing is
pushed. -/
def handleReceivePack (C : Crates) (contract : GitStorage) (accountId : String)
    (refUpdates : List RefUpdate) (rest : Bytes) : Outcome (GitStorage × Report) :=
  if rest ≠ [] then do
    let views := { packCount := contract.getPackCount, existingPacks := contract.getPacks 0 }
    let pack ← packData C views rest
    match contract.push accountId pack refUpdates with
    | .ok contract => return (contract, .ok)
    | .error e => return (contract, .ng e)
  else .ok (contract, .ok)

/-- The pack of the response to `git-upload-pack`, or none where the answer is just `NAK`. -/
def handleUploadPack (C : Crates) (wants : List String) (views : Views) :
    Outcome (Option Bytes) :=
  if wants = [] then .ok none
  else if views.packCount = 0 then .ok none
  else do
    let (_, known) ← collectObjects C views.existingPacks
    let packData ← buildPackfile C known.objects
    return some packData

/-! ## The incoming objects -/

variable {C : Crates}

theorem consistent_shaMap (objects : List PackObject) :
    Known.Consistent C { map := shaMap C objects, objects } where
  mem _ _ h := shaMap_eq_some h
  found _ h := exists_shaMap_eq h

theorem incomingObjects_saturated {rest : Bytes} {objects : List PackObject}
    (h : incomingObjects C rest = .ok objects) :
    Saturated (deltaRules C) (parsedObjects C [rest]) (parsedDeltas C [rest])
      {o | o ∈ objects} := by
  obtain ⟨r, hr, h⟩ := Outcome.bind_eq_ok.mp h
  have hobjects (o : PackObject) := mem_parsedObjects_singleton hr (o := o)
  have hdeltas (d : UnresolvedDelta) := mem_parsedDeltas_singleton hr (d := d)
  simp only at h
  split_ifs at h with hnil
  · cases h
    refine ⟨fun o ho => .seed ((hobjects o).mpr ho), fun o ho => ⟨o, (hobjects o).mp ho, rfl⟩,
      fun d hd => ?_⟩
    rw [hdeltas, hnil] at hd
    exact absurd hd List.not_mem_nil
  · obtain ⟨⟨pending, known⟩, hresolve, h⟩ := Outcome.bind_eq_ok.mp h
    cases h
    obtain ⟨hadv, hnone⟩ := resolvePending_spec (consistent_shaMap r.objects) hresolve
    have hmem : ∀ o ∈ r.objects, o ∈ parsedObjects C [rest] := fun o ho => (hobjects o).mpr ho
    have hfound : ∀ o ∈ parsedObjects C [rest], ∃ b ∈ r.objects, b.sha1 C = o.sha1 C :=
      fun o ho => ⟨o, (hobjects o).mp ho, rfl⟩
    exact hadv.saturated hnone hmem hfound fun d => (hdeltas d).symm

theorem incomingObjects_mem_iff {rest : Bytes} {objects : List PackObject}
    (h : incomingObjects C rest = .ok objects)
    (hinj : Set.InjOn (PackObject.sha1 C) {o | Reconstructible C [rest] o}) (o : PackObject) :
    o ∈ objects ↔ Reconstructible C [rest] o :=
  (incomingObjects_saturated h).mem_iff hinj o

/-! ## The pack that is pushed -/

theorem buildPackfileWithBases_carries {objects bases : List PackObject} {pack : Bytes}
    (hC : C.Zlib) (htypes : ∀ o ∈ objects, IsObjType o.objType)
    (h : buildPackfileWithBases C objects bases = .ok pack) : Carries C bases objects pack := by
  unfold buildPackfileWithBases at h
  split_ifs at h with hfits
  obtain ⟨⟨hcount, hobjects⟩, -, hbases⟩ := hfits
  obtain ⟨pack', r, resolved, hbuild, hparse, hdeltas, hperm⟩ :=
    parse_buildWithBases hC hcount hobjects hbases htypes
  rw [h, Outcome.ok.injEq] at hbuild
  subst hbuild
  exact ⟨r, resolved, hparse, hdeltas, hperm⟩

/-- The pushed pack carries some of the new objects over bases from the packs that were read,
and leaves out only objects whose SHA those packs give. -/
structure PackedFrom (C : Crates) (views : Views) (newObjects bases filtered : List PackObject)
    (pack : Bytes) : Prop where
  carries : Carries C bases filtered pack
  basesRead : ∀ b ∈ bases, Reconstructible C views.existingPacks b
  isNew : ∀ o ∈ filtered, o ∈ newObjects
  leftOut : ∀ o ∈ newObjects, o ∈ filtered ∨
    ∃ b, Reconstructible C views.existingPacks b ∧ b.sha1 C = o.sha1 C

theorem PackedFrom.read_of_injOn {views : Views} {newObjects bases filtered : List PackObject}
    {pack : Bytes} (h : PackedFrom C views newObjects bases filtered pack) {S : Set PackObject}
    (hinj : Set.InjOn (PackObject.sha1 C) S)
    (hread : ∀ b, Reconstructible C views.existingPacks b → b ∈ S) {o : PackObject}
    (hnew : o ∈ newObjects) (ho : o ∈ S) :
    o ∈ filtered ∨ Reconstructible C views.existingPacks o := by
  rcases h.leftOut o hnew with hkept | ⟨b, hb, hsha⟩
  · exact .inl hkept
  · have heq : b = o := hinj (hread b hb) ho hsha
    exact .inr (heq ▸ hb)

theorem packFor_spec {views : Views} {newObjects : List PackObject} {pack : Bytes} (hC : C.Zlib)
    (htypes : ∀ o ∈ newObjects, IsObjType o.objType)
    (h : packFor C views newObjects = .ok pack) :
    ∃ bases filtered, PackedFrom C views newObjects bases filtered pack := by
  unfold packFor at h
  split_ifs at h
  · obtain ⟨⟨pending, bases⟩, hcollect, h⟩ := Outcome.bind_eq_ok.mp h
    obtain ⟨hcons, hsat⟩ := collectObjects_saturated hcollect
    have hsub : ∀ o ∈ filterNew C bases.map newObjects, o ∈ newObjects :=
      fun o ho => (List.mem_filter.mp ho).1
    have htypes' : ∀ o ∈ filterNew C bases.map newObjects, IsObjType o.objType :=
      fun o ho => htypes o (hsub o ho)
    refine ⟨bases.objects, _, buildPackfileWithBases_carries hC htypes' h, hsat.sound, hsub,
      fun o ho => ?_⟩
    rcases hmap : bases.map (o.sha1 C) with _ | b
    · exact .inl (List.mem_filter.mpr ⟨ho, by simpa using hmap⟩)
    · obtain ⟨hb, hsha⟩ := hcons.mem _ _ hmap
      exact .inr ⟨b, hsat.sound b hb, hsha⟩
  · refine ⟨[], newObjects, buildPackfileWithBases_carries hC htypes h, ?_, ?_, ?_⟩
    · exact fun b hb => absurd hb List.not_mem_nil
    · exact fun o ho => ho
    · exact fun o ho => .inl ho

theorem packData_spec {views : Views} {rest pack : Bytes} (hC : C.Zlib)
    (h : packData C views rest = .ok pack) :
    ∃ newObjects bases filtered, incomingObjects C rest = .ok newObjects ∧
      PackedFrom C views newObjects bases filtered pack := by
  obtain ⟨newObjects, hnew, hpackFor⟩ := Outcome.bind_eq_ok.mp h
  have htypes : ∀ o ∈ newObjects, IsObjType o.objType :=
    fun o ho => Reconstructible.isObjType ((incomingObjects_saturated hnew).sound o ho)
  obtain ⟨bases, filtered, hpacked⟩ := packFor_spec hC htypes hpackFor
  exact ⟨newObjects, bases, filtered, hnew, hpacked⟩

/-- The pack that the handler pushes makes exactly the new objects available, also where more
packs are stored by then than were read. -/
theorem reconstructible_after_push {views : Views} {stored : List Bytes} {rest pack : Bytes}
    (hC : C.Zlib) (hviews : views.existingPacks ⊆ stored)
    (hpack : packData C views rest = .ok pack)
    (hinj : Set.InjOn (PackObject.sha1 C)
      {o | ReconstructibleWith C stored {o | Reconstructible C [rest] o} o})
    (o : PackObject) :
    Reconstructible C (stored ++ [pack]) o ↔
      ReconstructibleWith C stored {o | Reconstructible C [rest] o} o := by
  obtain ⟨newObjects, bases, filtered, hnew, hpacked⟩ := packData_spec hC hpack
  have hrest {o : PackObject} (ho : Reconstructible C [rest] o) :
      ReconstructibleWith C stored {o | Reconstructible C [rest] o} o := .seed (.inr ho)
  have hmem (o : PackObject) : o ∈ newObjects ↔ Reconstructible C [rest] o :=
    incomingObjects_mem_iff hnew (hinj.mono fun _ ho => hrest ho) o
  have hread {o : PackObject} (ho : Reconstructible C views.existingPacks o) :
      Reconstructible C stored o := ho.mono hviews
  -- the objects that were left out are stored already, so nothing is missing
  have hwith (o : PackObject) : ReconstructibleWith C stored {o | o ∈ filtered} o ↔
      ReconstructibleWith C stored {o | Reconstructible C [rest] o} o := by
    constructor
    · apply Derived.mono (Set.union_subset_union_right _ _) (le_refl _)
      exact fun o ho => (hmem o).mp (hpacked.isNew o ho)
    · apply Derived.of_seeds _ (le_refl _)
      rintro a (ha | ha)
      · exact .seed (.inl ha)
      · have hnew' : a ∈ newObjects := (hmem a).mpr ha
        rcases hpacked.read_of_injOn hinj (fun b hb => (hread hb).withObjects _) hnew' (hrest ha)
          with hkept | hstored
        · exact .seed (.inr hkept)
        · exact (hread hstored).withObjects _
  have hinj' := hinj.mono fun o ho => (hwith o).mp ho
  have hbases : ∀ b ∈ bases, Reconstructible C stored b := fun b hb => hread (hpacked.basesRead b hb)
  rw [hpacked.carries.reconstructible_append hbases hinj', hwith]

theorem packData_ne_nil {views : Views} {rest pack : Bytes} (hC : C.Zlib)
    (h : packData C views rest = .ok pack) : pack ≠ [] := by
  obtain ⟨_, _, _, -, hpacked⟩ := packData_spec hC h
  exact hpacked.carries.ne_nil

theorem getPacks_push {s s' : GitStorage} {repo : Repo} (hs : s.Represents repo) {caller : String}
    {pack : Bytes} {refUpdates : List RefUpdate} (hne : pack ≠ [])
    (h : s.push caller pack refUpdates = .ok s') : s'.getPacks 0 = s.getPacks 0 ++ [pack] := by
  have hexec : s.exec { predecessor := caller, call := .push pack refUpdates } = .ok s' := h
  obtain ⟨⟨repo', hstep, hs'⟩, -, -⟩ := exec_represents hs hexec
  obtain ⟨refs, -, rfl⟩ := Repo.exec_push.mp hstep
  rw [hs'.getPacks, hs.getPacks]
  simp [hne]

end NearGit.ServiceWorker
