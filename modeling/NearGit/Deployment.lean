import NearGit.FrontEnds
import NearGit.RemoteNear.RefClosure
import NearGit.StoredObjects

/-! git-server, service workers and git-remote-near on one contract. No step of theirs clears it,
and each program may work from an earlier state of the contract. -/

namespace NearGit.Deployment
open Lib NearGit.Packfile NearGit.Contract NearGit.StoredObjects
open NearGit.FrontEnds (Served)

/-- The contract, the objects of the accepted pushes, and every SHA that a ref has been at. -/
structure World where
  contract : GitStorage
  pushed : Set PackObject
  held : Set String

variable {C : Crates} {reachable : String → Set String} {w w' : World}

/-- What is reachable from the new SHAs is among the objects, or reachable from where some ref has
been: a client leaves out what the advertised refs reach. -/
def Covers (C : Crates) (reachable : String → Set String) (objects : Set PackObject)
    (held : Set String) (updates : List RefUpdate) : Prop :=
  ∀ u ∈ updates, ∀ sha ∈ reachable u.newSha,
    (∃ o ∈ objects, o.sha1 C = sha) ∨ ∃ old ∈ held, sha ∈ reachable old

def PackFits (C : Crates) (pushed : Set PackObject) (packData : Bytes) : Prop :=
  packData = [] ∨ ResolvesOver C pushed packData

def incoming (C : Crates) (pushed : Set PackObject) : Served → Set PackObject
  | .gitServer _ _ r => overlay C r.pack pushed
  | .serviceWorker _ _ _ r => {o | Reconstructible C [r.pack] o}

/-- The request of a git client; a service worker may have read the packs earlier. -/
def Proper (C : Crates) (w : World) : Served → Prop
  | .gitServer _ _ r => PackFits C w.pushed r.pack
  | .serviceWorker C' _ rpc _ => C' = C ∧
      ∀ packs, rpc.existingPacks = some packs → packs <+: w.contract.getPacks 0

def newShas (updates : List RefUpdate) : Set String := {sha | ∃ u ∈ updates, u.newSha = sha}

inductive Step (C : Crates) (reachable : String → Set String) (w : World) : World → Prop
  | accepted (served : Served) : Proper C w served →
      Covers C reachable (incoming C w.pushed served) w.held served.updates →
      (served.handle w.contract).accepted ≠ [] →
      Step C reachable w {
        contract := (served.handle w.contract).contract
        pushed := w.pushed ∪ incoming C w.pushed served
        held := w.held ∪ newShas served.updates }
  | unaccepted (served : Served) : (served.handle w.contract).accepted = [] →
      Step C reachable w { w with contract := (served.handle w.contract).contract }
  /-- A transaction that git-remote-near makes of what git prints, from refs read earlier. -/
  | remote (account : String) (git : RemoteNear.Git) (remoteRefMap : String → Option String)
      (op : RemoteNear.PushOp) (packData : Bytes) (refUpdates : List RefUpdate)
      (contract : GitStorage) :
      RemoteNear.planOp git remoteRefMap op = .send packData refUpdates →
      PackFits C w.pushed packData →
      Covers C reachable (overlay C packData w.pushed) w.held refUpdates →
      w.contract.push account packData refUpdates = .ok contract →
      Step C reachable w {
        contract
        pushed := overlay C packData w.pushed
        held := w.held ∪ newShas refUpdates }

def deployment (C : Crates) (reachable : String → Set String) (owner : String) : System World where
  init := {{ contract := .new owner, pushed := ∅, held := ∅ }}
  step := Step C reachable

/-- The log stands for the accepted objects, and has what is reachable from every ref. -/
structure World.Invariant (C : Crates) (reachable : String → Set String) (w : World) : Prop where
  refs : ∃ repo, w.contract.Represents repo ∧
    ∀ name sha, repo.refs name = some sha → sha ∈ w.held
  log : Holds C (w.contract.getPacks 0) w.pushed
  closed : ∀ sha ∈ w.held, ∀ x ∈ reachable sha, ∃ o ∈ w.pushed, o.sha1 C = x

theorem overlay_nil (S : Set PackObject) : overlay C [] S = S := by
  apply Set.Subset.antisymm
  · intro o ho
    refine Derived.mem_of_closed ?_ ?_ ho
    · rintro a (ha | ha)
      · simp [parsedObjects, parse_nil] at ha
      · exact ha
    · intro d hd
      simp [parsedDeltas, parse_nil] at hd
  · exact subset_overlay [] S

/-- Whatever program a transaction comes from, the invariant only asks what its pack gives. -/
theorem World.Invariant.push (h : w.Invariant C reachable) {caller : String} {packData : Bytes}
    {updates : List RefUpdate} {contract : GitStorage} (hfits : PackFits C w.pushed packData)
    (hinj : Set.InjOn (PackObject.sha1 C) (overlay C packData w.pushed))
    (hcovers : Covers C reachable (overlay C packData w.pushed) w.held updates)
    (hpush : w.contract.push caller packData updates = .ok contract) :
    World.Invariant C reachable {
      contract
      pushed := overlay C packData w.pushed
      held := w.held ∪ newShas updates } := by
  obtain ⟨repo, hrepo, hheld⟩ := h.refs
  obtain ⟨repo', hrepo', -, hlog, hrefs⟩ := push_represents hrepo hpush
  have hpacks : contract.getPacks 0 =
      w.contract.getPacks 0 ++ if packData = [] then [] else [packData] := by
    rw [hrepo'.getPacks, hrepo.getPacks, List.drop_zero, List.drop_zero, hlog]
  refine ⟨⟨repo', hrepo', ?_⟩, ?_, ?_⟩
  · intro name sha hsha
    rcases hrefs name sha hsha with hold | ⟨u, hu, -, hnew⟩
    · exact .inl (hheld name sha hold)
    · exact .inr ⟨u, hu, hnew⟩
  · show Holds C (contract.getPacks 0) (overlay C packData w.pushed)
    rw [hpacks]
    rcases hfits with rfl | hresolves
    · rw [if_pos rfl, List.append_nil, overlay_nil]
      exact h.log
    · have hne : packData ≠ [] := by
        rintro rfl
        obtain ⟨r, hr⟩ := hresolves.parses
        rw [parse_nil] at hr
        cases hr
      rw [if_neg hne]
      exact h.log.concat hresolves hinj
  · have hold : ∀ sha ∈ w.held, ∀ x ∈ reachable sha,
        ∃ o ∈ overlay C packData w.pushed, o.sha1 C = x := by
      intro sha hsha x hx
      obtain ⟨o, ho, hkey⟩ := h.closed sha hsha x hx
      exact ⟨o, subset_overlay packData _ ho, hkey⟩
    rintro sha (hsha | ⟨u, hu, rfl⟩) x hx
    · exact hold sha hsha x hx
    · rcases hcovers u hu x hx with hnew | ⟨old, hsha, hx⟩
      · exact hnew
      · exact hold old hsha x hx

theorem overlay_sent {C' : Crates} {accountId : String} {rpc : ServiceWorker.Rpc}
    {r : PushRequest.AnyRequest} {args packData : Bytes} (hC : C.Zlib)
    (h : w.Invariant C reachable) (hproper : Proper C w (.serviceWorker C' accountId rpc r))
    (hsent : (Served.serviceWorker C' accountId rpc r).sent = some (args, packData))
    (hinj : Set.InjOn (PackObject.sha1 C) (w.pushed ∪ {o | Reconstructible C [r.pack] o})) :
    ResolvesOver C w.pushed packData ∧
      overlay C packData w.pushed = w.pushed ∪ {o | Reconstructible C [r.pack] o} := by
  obtain ⟨rfl, hread⟩ := hproper
  rw [Served.sent] at hsent
  split_ifs at hsent
  obtain ⟨packData', hdata, hsent⟩ := Option.bind_eq_some_iff.mp hsent
  obtain ⟨args', -, hpair⟩ := Option.bind_eq_some_iff.mp hsent
  cases hpair
  obtain ⟨-, views, hviews, hpack⟩ := ServiceWorker.packToPush_eq_some hdata
  -- what was read is a part of the log, and so gives only objects that are there
  have hpart : views.existingPacks ⊆ w.contract.getPacks 0 := by
    obtain ⟨packCount, -, hviews⟩ := Option.bind_eq_some_iff.mp hviews
    split_ifs at hviews
    · obtain ⟨packs, hpacks, hviews⟩ := Option.bind_eq_some_iff.mp hviews
      cases hviews
      exact (hread packs hpacks).subset
    · cases hviews
      exact List.nil_subset _
  apply overlay_packData hC _ hpack hinj
  exact fun o ho => (h.log.objects o).mp (ho.mono hpart)

theorem Step.pushed_subset (h : Step C reachable w w') : w.pushed ⊆ w'.pushed := by
  cases h with
  | accepted => exact Set.subset_union_left
  | unaccepted => exact le_refl _
  | remote => exact subset_overlay _ _

theorem Step.invariant (hC : C.Zlib) (h : w.Invariant C reachable) (hstep : Step C reachable w w')
    (hinj : Set.InjOn (PackObject.sha1 C) w'.pushed) : w'.Invariant C reachable := by
  cases hstep with
  | accepted served hproper hcovers haccepted =>
    rcases served.handle_cases w.contract with ⟨hnone, -⟩ | ⟨args, packData, hsent, -, -, hpush⟩
    · exact absurd hnone haccepted
    have hsame : PackFits C w.pushed packData ∧
        overlay C packData w.pushed = w.pushed ∪ incoming C w.pushed served := by
      cases served with
      | gitServer ownerId delivery r =>
        obtain ⟨args', -, hpair⟩ := Option.map_eq_some_iff.mp hsent
        cases hpair
        exact ⟨hproper, (Set.union_eq_right.mpr (subset_overlay r.pack _)).symm⟩
      | serviceWorker C' accountId rpc r =>
        obtain ⟨hresolves, hoverlay⟩ := overlay_sent hC h hproper hsent hinj
        exact ⟨.inr hresolves, hoverlay⟩
    obtain ⟨hfits, hoverlay⟩ := hsame
    have hcovers' : Covers C reachable (overlay C packData w.pushed) w.held served.updates := by
      intro u hu sha hsha
      refine (hcovers u hu sha hsha).imp_left ?_
      rintro ⟨o, ho, hkey⟩
      exact ⟨o, hoverlay ▸ .inr ho, hkey⟩
    have hpushed := h.push hfits (hoverlay ▸ hinj) hcovers' hpush
    rwa [hoverlay] at hpushed
  | unaccepted served hnone =>
    rcases served.handle_cases w.contract with ⟨-, hsame⟩ | ⟨args, packData, -, hsome, -⟩
    · rw [hsame]
      exact h
    · rw [hnone] at hsome
      cases hsome
  | remote account git remoteRefMap op packData refUpdates contract _ hfits hcovers hpush =>
    exact h.push hfits hinj hcovers hpush

theorem deployment_invariant {owner : String} (hC : C.Zlib)
    (h : (deployment C reachable owner).Reachable w)
    (hinj : Set.InjOn (PackObject.sha1 C) w.pushed) : w.Invariant C reachable := by
  refine System.Reachable.invariant_of
    (A := fun w => Set.InjOn (PackObject.sha1 C) w.pushed) ?_ ?_ ?_ h hinj
  · intro w w' hstep hinj
    exact hinj.mono hstep.pushed_subset
  · rintro w rfl -
    refine ⟨⟨.empty, represents_new owner, fun name sha h => by cases h⟩, holds_nil C, ?_⟩
    exact fun sha hsha => absurd hsha (Set.notMem_empty sha)
  · intro w w' hw hstep hinj
    exact hstep.invariant hC hw hinj

/-- Whatever programs push, in any order: both servers put together exactly the objects of the
accepted pushes, every delta of a stored pack has its base in that pack or the packs before it,
and what is reachable from any SHA that a ref is or was at is there. -/
theorem deployment_keeps_objects (C : Crates) (hC : C.Zlib) (reachable : String → Set String)
    (owner : String) (w : World) (hw : (deployment C reachable owner).Reachable w)
    (hinj : Set.InjOn (PackObject.sha1 C) w.pushed) :
    (∃ pending known,
      ServiceWorker.collectObjects C (w.contract.getPacks 0) = .ok (pending, known) ∧
        ∀ o, o ∈ known.objects ↔ o ∈ w.pushed) ∧
    (∃ all, GitServer.allObjects C (w.contract.getPacks 0) = .ok all ∧
      ∀ o, o ∈ all ↔ o ∈ w.pushed) ∧
    EachAfter (fun before pack => BasesStored C (before ++ [pack]) pack)
      (w.contract.getPacks 0) ∧
    (∀ r ∈ w.contract.getRefs, r.2 ∈ w.held) ∧
    ∀ sha ∈ w.held, ∀ x ∈ reachable sha, ∃ o ∈ w.pushed, o.sha1 C = x := by
  have h := deployment_invariant hC hw hinj
  obtain ⟨repo, hrepo, hheld⟩ := h.refs
  refine ⟨h.log.collectObjects hinj, h.log.allObjects hinj, h.log.bases, ?_, h.closed⟩
  exact fun r hr => hheld r.1 r.2 ((hrepo.mem_getRefs r.1 r.2).mp hr)

/-! ## A blob that git-remote-near pushes, and a thin pack on it for git-server -/

open NearGit.ServiceWorker (storedPack thinPack)

def thinServed : Served := .gitServer "alice" (.answered "") (.packOnly thinPack)

theorem carries_storedPack : Carries referenceCrates [] [sampleBlob 40 1] storedPack :=
  ⟨_, [], ServiceWorker.parse_storedPack, .nil, List.Perm.refl _⟩

theorem carries_thinPack :
    Carries referenceCrates [sampleBlob 40 1] [sampleBlob 40 2] thinPack :=
  ⟨_, [sampleBlob 40 2], ServiceWorker.parse_thinPack,
    .cons ⟨_, List.mem_singleton_self _, rfl, ServiceWorker.thinDelta_applyTo⟩ .nil,
    List.Perm.refl _⟩

def twoBlobs : Set PackObject := {o | o = sampleBlob 40 1 ∨ o = sampleBlob 40 2}

theorem injOn_twoBlobs : Set.InjOn (PackObject.sha1 referenceCrates) twoBlobs := by
  have hne := ServiceWorker.sha1_sampleBlob_ne
  rintro a (rfl | rfl) b (rfl | rfl) hsha
  · rfl
  · exact absurd hsha hne
  · exact absurd hsha.symm hne
  · rfl

theorem overlay_storedPack : overlay referenceCrates storedPack ∅ = {sampleBlob 40 1} := by
  have hnone : ∀ b ∈ ([] : List PackObject), b ∈ (∅ : Set PackObject) :=
    fun b hb => absurd hb List.not_mem_nil
  rw [overlay_of_carries carries_storedPack hnone, Set.empty_union]
  · ext o
    exact List.mem_singleton
  · refine injOn_twoBlobs.mono ?_
    rintro o (ho | ho)
    · exact absurd ho (Set.notMem_empty o)
    · exact .inl (List.mem_singleton.mp ho)

theorem base_thinPack : ∀ b ∈ [sampleBlob 40 1], b ∈ ({sampleBlob 40 1} : Set PackObject) :=
  List.forall_mem_singleton.mpr rfl

theorem overlay_thinPack : overlay referenceCrates thinPack {sampleBlob 40 1} = twoBlobs := by
  have hsame : ({sampleBlob 40 1} : Set PackObject) ∪ {o | o ∈ [sampleBlob 40 2]} = twoBlobs := by
    ext o
    exact or_congr Iff.rfl List.mem_singleton
  rw [overlay_of_carries carries_thinPack base_thinPack, hsame]
  rw [hsame]
  exact injOn_twoBlobs

theorem sent_thinServed : ∃ args, thinServed.sent = some (args, thinPack) := by
  have hfits : GitServer.sentPush (PushRequest.AnyRequest.packOnly thinPack).body ≠ none := by
    rw [Ne, GitServer.sentPush_eq_none_iff, not_not, Served.gitServer_pack,
      PushRequest.AnyRequest.gitServer_reads]
    exact ⟨by decide +kernel, by decide, fun u hu => absurd hu List.not_mem_nil⟩
  obtain ⟨args, hargs⟩ := Option.ne_none_iff_exists'.mp hfits
  refine ⟨args, ?_⟩
  rw [thinServed, Served.sent, hargs]
  rfl

theorem push_twice : ∃ s₁ s₂,
    (GitStorage.new "alice").push "alice" storedPack [RemoteNear.tagUpdate] = .ok s₁ ∧
      s₁.push "alice" thinPack [] = .ok s₂ ∧ s₂.getPacks 0 = [storedPack, thinPack] := by
  obtain ⟨s₁, hfirst, howner, hcount⟩ : ∃ s₁, (GitStorage.new "alice").push "alice" storedPack
      [RemoteNear.tagUpdate] = .ok s₁ ∧ s₁.owner = "alice" ∧ s₁.packCount = 1 :=
    ⟨_, ServiceWorker.push_storedPack rfl, rfl, rfl⟩
  have hthin : thinPack ≠ [] := ServiceWorker.ne_nil_of_parse ServiceWorker.parse_thinPack
  obtain ⟨s₂, hsecond⟩ : ∃ s₂, s₁.push "alice" thinPack [] = .ok s₂ :=
    ⟨_, GitStorage.push_eq_ok.mpr ⟨howner.symm, _, GitStorage.storePack_eq_ok.mpr
      (.inr ⟨hthin, by rw [hcount]; decide, rfl⟩), rfl⟩⟩
  obtain ⟨repo, hrepo, -⟩ := push_represents (represents_new "alice") hfirst
  refine ⟨s₁, s₂, hfirst, hsecond, ?_⟩
  rw [ServiceWorker.getPacks_push hrepo hthin hsecond,
    ServiceWorker.getPacks_of_push_storedPack hfirst]
  rfl

/-- git-remote-near pushes the blob with a tag, then git-server stores the thin pack. -/
theorem exists_deployed : ∃ w : World,
    (deployment referenceCrates RemoteNear.sampleModel.reachable "alice").Reachable w ∧
      w.pushed = twoBlobs ∧ RemoteNear.sampleSha ∈ w.held ∧
      w.contract.getPacks 0 = [storedPack, thinPack] := by
  obtain ⟨s₁, s₂, hpush₁, hpush₂, hpacks⟩ := push_twice
  have hnone : ∀ b ∈ ([] : List PackObject), b ∈ (∅ : Set PackObject) :=
    fun b hb => absurd hb List.not_mem_nil
  have hstored : ResolvesOver referenceCrates ∅ storedPack := by
    apply resolvesOver_of_carries carries_storedPack hnone
    rw [overlay_storedPack, Set.empty_union]
    ext o
    exact List.mem_singleton.symm
  have hcovers : Covers referenceCrates RemoteNear.sampleModel.reachable
      (overlay referenceCrates storedPack ∅) ∅ [RemoteNear.tagUpdate] := by
    refine List.forall_mem_singleton.mpr ?_
    rintro sha ⟨rfl, -⟩
    rw [overlay_storedPack]
    exact .inl ⟨_, rfl, rfl⟩
  have hfirst : (deployment referenceCrates RemoteNear.sampleModel.reachable "alice").Reachable _ :=
    System.Reachable.step (.init rfl) (.remote "alice" RemoteNear.sampleGit _ RemoteNear.tagOp
      storedPack [RemoteNear.tagUpdate] s₁ RemoteNear.planOp_sample (.inr hstored) hcovers hpush₁)
  have hthin : ResolvesOver referenceCrates (overlay referenceCrates storedPack ∅) thinPack := by
    rw [overlay_storedPack]
    apply resolvesOver_of_carries carries_thinPack base_thinPack
    rw [overlay_thinPack]
    ext o
    exact or_congr Iff.rfl List.mem_singleton.symm
  obtain ⟨args, hsent⟩ := sent_thinServed
  have haccepted : (thinServed.handle s₁).accepted ≠ [] :=
    (thinServed.accepted_iff s₁).mpr ⟨args, thinPack, hsent, rfl, s₂, hpush₂⟩
  have hsecond := hfirst.step (.accepted thinServed (.inr hthin)
    (fun u hu => absurd hu List.not_mem_nil) haccepted)
  refine ⟨_, hsecond, ?_, .inl (.inr ⟨_, List.mem_singleton_self _, rfl⟩), ?_⟩
  · show overlay referenceCrates storedPack ∅ ∪
      overlay referenceCrates thinPack (overlay referenceCrates storedPack ∅) = twoBlobs
    rw [overlay_storedPack, overlay_thinPack]
    exact Set.union_eq_right.mpr fun o ho => .inl ho
  · rcases thinServed.handle_cases s₁ with ⟨hnone, -⟩ | ⟨args', packData, hsent', -, -, hpush⟩
    · exact absurd hnone haccepted
    · cases hsent.symm.trans hsent'
      cases hpush₂.symm.trans hpush
      exact hpacks

theorem deployment_keeps_twoBlobs : ∃ w : World,
    (deployment referenceCrates RemoteNear.sampleModel.reachable "alice").Reachable w ∧
      RemoteNear.sampleSha ∈ w.held ∧
      ∃ all, GitServer.allObjects referenceCrates (w.contract.getPacks 0) = .ok all ∧
        ∀ o, o ∈ all ↔ o ∈ twoBlobs := by
  obtain ⟨w, hw, hpushed, hheld, -⟩ := exists_deployed
  have hkeeps := deployment_keeps_objects referenceCrates referenceCrates_zlib
    RemoteNear.sampleModel.reachable "alice" w hw (hpushed ▸ injOn_twoBlobs)
  exact ⟨w, hw, hheld, hpushed ▸ hkeeps.2.1⟩

end NearGit.Deployment
