import NearGit.Deployment

/-! A fetch by git-remote-near at any time of the deployment: the packs go to git one after the
other, and git resolves each over what it has by then. -/

namespace NearGit.Deployment
open Lib NearGit.Packfile NearGit.StoredObjects
open NearGit.GitServer (inOrder inOrder_concat)
open NearGit.RemoteNear (doFetch doFetch_concat)

section Fetch
variable {σ : Type*} {C : Crates} {holds : σ → Set PackObject}
  {indexPack : σ → Bytes → σ × Bool}

/-- `index-pack --stdin --fix-thin` takes a pack that it can resolve over the repository, and adds
its objects. -/
def DocumentsIndexPack (C : Crates) (holds : σ → Set PackObject)
    (indexPack : σ → Bytes → σ × Bool) : Prop :=
  ∀ localRepo packData, ResolvesOver C (holds localRepo) packData →
    (indexPack localRepo packData).2 = true ∧
      holds (indexPack localRepo packData).1 = overlay C packData (holds localRepo)

theorem doFetch_of_resolves (hindex : DocumentsIndexPack C holds indexPack) {log : List Bytes}
    (hlog : EachAfter (fun before pack => ResolvesOver C (inOrder C before) pack) log)
    (localRepo : σ) (hinj : Set.InjOn (PackObject.sha1 C) (holds localRepo ∪ inOrder C log)) :
    let fetched := doFetch indexPack log localRepo
    (∀ success ∈ fetched.2, success = true) ∧
      holds fetched.1 = holds localRepo ∪ inOrder C log := by
  induction log using List.reverseRecOn with
  | nil =>
    refine ⟨List.forall_mem_nil _, ?_⟩
    show holds localRepo = holds localRepo ∪ ∅
    rw [Set.union_empty]
  | append_singleton log pack ih =>
    obtain ⟨hbefore, hpack⟩ := eachAfter_concat.mp hlog
    rw [inOrder_concat] at hinj ⊢
    have hold : holds localRepo ∪ inOrder C log ⊆ holds localRepo ∪ overlay C pack (inOrder C log) :=
      Set.union_subset_union_right _ (subset_overlay pack _)
    obtain ⟨hsuccess, hholds⟩ := ih hbefore (hinj.mono hold)
    have hresolves : ResolvesOver C (holds (doFetch indexPack log localRepo).1) pack := by
      rw [hholds]
      exact hpack.mono Set.subset_union_right
    obtain ⟨htaken, hadded⟩ := hindex _ pack hresolves
    rw [doFetch_concat]
    constructor
    · exact List.forall_mem_append.mpr ⟨hsuccess, List.forall_mem_singleton.mpr htaken⟩
    · rw [hadded, hholds]
      exact hpack.overlay_union hinj

/-- Whatever has been pushed by whatever program, git takes every pack of a fetch through
git-remote-near, and has the accepted objects beside its own then, and so everything that a ref
reaches. -/
theorem fetch_complete (C : Crates) (hC : C.Zlib) (reachable : String → Set String)
    (owner : String) (w : World) (hw : (deployment C reachable owner).Reachable w)
    (holds : σ → Set PackObject) (indexPack : σ → Bytes → σ × Bool)
    (hindex : DocumentsIndexPack C holds indexPack) (localRepo : σ)
    (hinj : Set.InjOn (PackObject.sha1 C) (holds localRepo ∪ w.pushed)) :
    let fetched := doFetch indexPack (w.contract.getPacks 0) localRepo
    (∀ success ∈ fetched.2, success = true) ∧
    (∀ o, o ∈ holds fetched.1 ↔ o ∈ holds localRepo ∨ o ∈ w.pushed) ∧
    ∀ r ∈ w.contract.getRefs, ∀ x ∈ reachable r.2, ∃ o ∈ holds fetched.1, o.sha1 C = x := by
  have h := deployment_invariant hC hw (hinj.mono Set.subset_union_right)
  obtain ⟨repo, hrepo, hheld⟩ := h.refs
  rw [← h.log.inOrder] at hinj
  obtain ⟨hsuccess, hholds⟩ := doFetch_of_resolves hindex h.log.resolves localRepo hinj
  rw [h.log.inOrder] at hholds
  refine ⟨hsuccess, fun o => ?_, fun r hr x hx => ?_⟩
  · rw [hholds, Set.mem_union]
  · have hsha : r.2 ∈ w.held := hheld r.1 r.2 ((hrepo.mem_getRefs r.1 r.2).mp hr)
    obtain ⟨o, ho, hkey⟩ := h.closed r.2 hsha x hx
    exact ⟨o, hholds ▸ .inr ho, hkey⟩

end Fetch

/-! ## The thin pack behind the blob -/

open Classical in
noncomputable def indexObjects (C : Crates) (localRepo : Set PackObject) (packData : Bytes) :
    Set PackObject × Bool :=
  if ResolvesOver C localRepo packData then (overlay C packData localRepo, true)
  else (localRepo, false)

theorem documentsIndexPack_indexObjects (C : Crates) :
    DocumentsIndexPack C (fun localRepo => localRepo) (indexObjects C) := by
  intro localRepo packData hresolves
  rw [indexObjects, if_pos hresolves]
  exact ⟨rfl, rfl⟩

theorem fetch_twoBlobs :
    let fetched := doFetch (indexObjects referenceCrates)
      [ServiceWorker.storedPack, ServiceWorker.thinPack] ∅
    (∀ success ∈ fetched.2, success = true) ∧ fetched.1 = twoBlobs := by
  obtain ⟨w, hw, hpushed, -, hpacks⟩ := exists_deployed
  have hinj : Set.InjOn (PackObject.sha1 referenceCrates) (∅ ∪ w.pushed) := by
    rw [Set.empty_union, hpushed]
    exact injOn_twoBlobs
  obtain ⟨hsuccess, hmem, -⟩ := fetch_complete referenceCrates referenceCrates_zlib
    RemoteNear.sampleModel.reachable "alice" w hw (fun localRepo => localRepo) _
    (documentsIndexPack_indexObjects referenceCrates) ∅ hinj
  rw [hpacks] at hsuccess hmem
  refine ⟨hsuccess, Set.ext fun o => (hmem o).trans ?_⟩
  rw [hpushed]
  exact or_iff_right (Set.notMem_empty o)

end NearGit.Deployment
