import NearGit.Deployment
import NearGit.FetchRequest
import NearGit.ServiceWorker.UploadClosure

/-! A clone or a fetch from either server, at any time of the deployment. -/

namespace NearGit.Deployment
open Lib NearGit.Packfile NearGit.StoredObjects

open NearGit.ServiceWorker (storedPack thinPack)

variable {C : Crates} {reachable : String → Set String} {w : World}

/-- A client takes a line with NAK, and then the pack. -/
def readResponse (C : Crates) (body : Bytes) : Option ParseResult :=
  let n := PktLine.fieldLength body
  if (body.take n).drop 4 = Utf8.encode "NAK\n" then (parse .w64 C (body.drop n)).toOption else none

structure Complete (C : Crates) (reachable : String → Set String) (w : World) (body : Bytes)
    (result : ParseResult) : Prop where
  read : readResponse C body = some result
  deltas : result.deltas = []
  objects : ∀ o, o ∈ result.objects ↔ o ∈ w.pushed
  closed : ∀ sha ∈ w.held, ∀ x ∈ reachable sha, ∃ o ∈ result.objects, o.sha1 C = x

theorem readResponse_nak (packData : Bytes) :
    readResponse C (GitServer.nakLine ++ packData) = (parse .w64 C packData).toOption := by
  have hshort : (Utf8.encode "NAK\n").length ≤ 65531 := by decide
  have hlength := PktLine.length_encode hshort
  rw [readResponse, GitServer.nakLine, PktLine.fieldLength_encode hshort, ← hlength,
    List.take_left, List.drop_left, if_pos]
  rw [PktLine.encode, List.drop_left' (PktLine.length_hexLength (by omega))]

theorem complete_of_build (hC : C.Zlib) (h : w.Invariant C reachable) {objects : List PackObject}
    (hmem : ∀ o, o ∈ objects ↔ o ∈ w.pushed) (hcount : objects.length < 2 ^ 32)
    (hdata : ∀ o ∈ w.pushed, o.data.length < 2 ^ 32) :
    ∃ packData result, build .w64 C objects = .ok packData ∧
      Complete C reachable w (GitServer.nakLine ++ packData) result := by
  have htypes : ∀ o ∈ objects, IsObjType o.objType :=
    fun o ho => ((h.log.objects o).mpr ((hmem o).mp ho)).isObjType
  obtain ⟨packData, hbuild, hparse⟩ :=
    parse_build hC hcount (fun o ho => hdata o ((hmem o).mp ho)) htypes
  have hsorted (o : PackObject) : o ∈ objects.mergeSort sortsBefore ↔ o ∈ w.pushed := by
    rw [List.mem_mergeSort, hmem]
  refine ⟨packData, { objects := objects.mergeSort sortsBefore, deltas := [] }, hbuild, ?_, rfl,
    hsorted, ?_⟩
  · rw [readResponse_nak, hparse]
    rfl
  · intro sha hsha x hx
    obtain ⟨o, ho, hkey⟩ := h.closed sha hsha x hx
    exact ⟨o, (hsorted o).mpr ho, hkey⟩

theorem nodup_collectObjects {packs : List Bytes} {pending : List UnresolvedDelta}
    {known : ServiceWorker.Known}
    (h : ServiceWorker.collectObjects C packs = .ok (pending, known)) : known.objects.Nodup := by
  rw [ServiceWorker.collectObjects_eq] at h
  obtain ⟨results, -, hrun⟩ := Outcome.bind_eq_ok.mp h
  obtain ⟨-, hdistinct, -, -⟩ := ServiceWorker.loadParsed_spec (C := C) results
  have hfinal : known.Distinct C :=
    ServiceWorker.resolvePending_keeps (fun k obj hk => hk.add obj) hdistinct hrun
  exact hfinal.nodup.of_map

theorem pushed_eq_empty (h : w.Invariant C reachable) (hcount : w.contract.getPackCount = 0) :
    w.pushed = ∅ := by
  obtain ⟨repo, hrepo, -⟩ := h.refs
  have hnone : w.contract.getPacks 0 = [] := by
    rw [hrepo.getPacks, List.drop_zero, ← List.length_eq_zero_iff, ← hrepo.packCount]
    exact hcount
  ext o
  rw [← h.log.objects, hnone]
  exact (holds_nil C).objects o

/-- Whatever has been pushed by whatever program, a request with wants gets from either server
exactly the accepted objects, and so everything that a ref reaches, whenever it was advertised; but
from a contract without packs the service worker sends none. -/
theorem clone_complete (C : Crates) (hC : C.Zlib) (reachable : String → Set String)
    (owner : String) (w : World) (hw : (deployment C reachable owner).Reachable w)
    (hinj : Set.InjOn (PackObject.sha1 C) w.pushed)
    (hdata : ∀ o ∈ w.pushed, o.data.length < 2 ^ 32)
    (hcount : ∀ all, GitServer.allObjects C (w.contract.getPacks 0) = .ok all →
      all.length < 2 ^ 32)
    (r : FetchRequest.Request) (hwants : r.wants ≠ []) (hfew : r.wants.length < 2 ^ 32) :
    (∃ body result, GitServer.handleUploadPackBody C (w.contract.getPacks 0) r.body = .ok body ∧
      Complete C reachable w body result) ∧
    ∃ body, ServiceWorker.handleUploadPackBody C
        { packCount := w.contract.getPackCount, existingPacks := w.contract.getPacks 0 } r.body =
          .ok body ∧
      if w.contract.getPackCount = 0 then w.pushed = ∅ ∧ body = GitServer.nakLine ++ PktLine.flush
      else ∃ result, Complete C reachable w body result := by
  have h := deployment_invariant hC hw hinj
  have hshas : r.shas ≠ [] := fun hnil => hwants (List.map_eq_nil_iff.mp hnil)
  obtain ⟨all, hall, hmemAll⟩ := h.log.allObjects hinj
  obtain ⟨pending, known, hcollect, hmem⟩ := h.log.collectObjects hinj
  have hless : known.objects.length ≤ all.length := by
    apply (List.subperm_of_subset (nodup_collectObjects hcollect) _).length_le
    exact fun o ho => (hmemAll o).mpr ((hmem o).mp ho)
  constructor
  · obtain ⟨packData, result, hbuild, hcomplete⟩ :=
      complete_of_build hC h hmemAll (hcount all hall) hdata
    refine ⟨_, result, ?_, hcomplete⟩
    rw [GitServer.handleUploadPackBody, r.gitServer_wants, if_neg hshas,
      GitServer.handleUploadPack, hall, Outcome.ok_bind, hbuild, Outcome.ok_bind]
    rfl
  · obtain ⟨hlines, hsame⟩ := r.serviceWorker_wants hfew
    rw [ServiceWorker.handleUploadPackBody, hlines]
    simp only [hsame, ServiceWorker.handleUploadPack, if_neg hshas]
    by_cases hpacks : w.contract.getPackCount = 0
    · simp only [if_pos hpacks]
      exact ⟨_, rfl, pushed_eq_empty h hpacks, rfl⟩
    simp only [if_neg hpacks]
    have hknown : known.objects.length < 2 ^ 32 := hless.trans_lt (hcount all hall)
    obtain ⟨packData, result, hbuild, hcomplete⟩ := complete_of_build hC h hmem hknown hdata
    have hfits : ServiceWorker.Fits known.objects ∧ ServiceWorker.Fits [] := by
      refine ⟨⟨hknown, fun o ho => hdata o ((hmem o).mp ho)⟩, by decide, fun o ho => ?_⟩
      exact absurd ho List.not_mem_nil
    have hbuilt : ServiceWorker.buildPackfile C known.objects = .ok packData := by
      rw [ServiceWorker.buildPackfile, ServiceWorker.buildPackfileWithBases, if_pos hfits]
      exact hbuild
    refine ⟨_, ?_, result, hcomplete⟩
    rw [hcollect, Outcome.ok_bind, hbuilt]
    rfl

theorem isSha_sampleSha : PushRequest.isSha RemoteNear.sampleSha.toList = true := by
  decide +kernel

def sampleFetch : FetchRequest.Request where
  wants := [{
    sha := RemoteNear.sampleSha.toList
    capabilities := ["multi_ack_detailed", "side-band-64k"]
    lf := true
    isSha_sha := isSha_sampleSha }]
  rest := []
  length_payload_le := List.forall_mem_singleton.mpr (by decide +kernel)

theorem length_allObjects_deployed : ∀ all,
    GitServer.allObjects referenceCrates [storedPack, thinPack] = .ok all →
      all.length < 2 ^ 32 := by
  have hlength : (GitServer.allObjects referenceCrates [storedPack, thinPack]).toOption.map
      List.length = some 2 := by
    decide +kernel
  intro all hall
  rw [hall, Outcome.toOption, Option.map_some, Option.some.injEq] at hlength
  omega

theorem clone_twoBlobs : ∃ (w : World) (body : Bytes) (result : ParseResult),
    (deployment referenceCrates RemoteNear.sampleModel.reachable "alice").Reachable w ∧
      GitServer.handleUploadPackBody referenceCrates (w.contract.getPacks 0) sampleFetch.body =
        .ok body ∧
      readResponse referenceCrates body = some result ∧
      ∃ o ∈ result.objects, o.sha1 referenceCrates = RemoteNear.sampleSha := by
  obtain ⟨w, hw, hpushed, hheld, hpacks⟩ := exists_deployed
  have hdata : ∀ o ∈ w.pushed, o.data.length < 2 ^ 32 := by
    rw [hpushed]
    rintro o (rfl | rfl)
    · decide
    · decide
  obtain ⟨⟨body, result, hbody, hcomplete⟩, -⟩ := clone_complete referenceCrates referenceCrates_zlib
    RemoteNear.sampleModel.reachable "alice" w hw (hpushed ▸ injOn_twoBlobs) hdata
    (hpacks ▸ length_allObjects_deployed) sampleFetch (List.cons_ne_nil _ _) (by decide)
  exact ⟨w, body, result, hw, hbody, hcomplete.read, hcomplete.closed _ hheld _ ⟨rfl, rfl⟩⟩

end NearGit.Deployment
