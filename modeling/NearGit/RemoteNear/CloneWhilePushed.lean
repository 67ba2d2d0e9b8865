import NearGit.RemoteNear.Conversation
import NearGit.RemoteNear.RefClosure

/-! A clone through git-remote-near: the refs that git is told of are from an earlier state of the
contract than the packs that it then fetches. -/

namespace NearGit.RemoteNear
open Lib NearGit.Packfile NearGit.Contract

section Later
variable {ι : Type*} [DecidableEq ι] {G : GitModel} {account : ι → String} {w w' : World ι}

/-- From `w` to `w'` the clients push, and nobody clears the storage. -/
def Later (G : GitModel) (account : ι → String) : World ι → World ι → Prop :=
  Relation.ReflTransGen fun w w' => ∃ i, BatchStep G account w i w'

theorem Later.reachable {owner : String} (h : Later G account w w')
    (hw : (remotes G owner account).Reachable w) : (remotes G owner account).Reachable w' := by
  unfold Later at h
  induction h with
  | refl => exact hw
  | tail _ hstep ih => exact ih.step (.inl hstep)

theorem isPrefix_getPacks_of_push {s s' : GitStorage} {r : Repo} (hs : s.Represents r)
    {predecessor : String} {packData : Bytes} {us : List RefUpdate}
    (hpush : s.push predecessor packData us = .ok s') : s.getPacks 0 <+: s'.getPacks 0 := by
  have hexec : s.exec { predecessor, call := .push packData us } = .ok s' := hpush
  obtain ⟨⟨r', hstep, hs'⟩, -⟩ := exec_represents hs hexec
  obtain ⟨refs, -, rfl⟩ := Repo.exec_push.mp hstep
  rw [hs.getPacks, hs'.getPacks]
  exact List.prefix_append ..

theorem BatchStep.isPrefix_getPacks {i : ι} (hw : w.Invariant G)
    (hstep : BatchStep G account w i w') : w.contract.getPacks 0 <+: w'.contract.getPacks 0 := by
  cases hstep with
  | accept remoteRefMap ops packData refUpdates contract hbatch hpush =>
    obtain ⟨repo, hrepo, -⟩ := hw.closed
    exact isPrefix_getPacks_of_push hrepo hpush
  | start | report | plan | reject | stop => exact List.prefix_rfl

theorem Later.isPrefix_getPacks {owner : String} (h : Later G account w w')
    (hw : (remotes G owner account).Reachable w) :
    w.contract.getPacks 0 <+: w'.contract.getPacks 0 := by
  unfold Later at h
  induction h with
  | refl => exact List.prefix_rfl
  | tail hbefore hstep ih =>
    obtain ⟨i, hstep⟩ := hstep
    have hreachable := Later.reachable hbefore hw
    exact ih.trans (hstep.isPrefix_getPacks (remotes_invariant hreachable))

theorem Later.fetch_listed {σ : Type*} {owner : String} (h : Later G account w w')
    (hw : (remotes G owner account).Reachable w) {holds : σ → Set String}
    {indexPack : σ → Bytes → σ × Bool} (hindex : G.DocumentsIndexPack holds indexPack)
    (localRepo : σ) :
    let fetched := doFetch indexPack (w'.contract.getPacks 0) localRepo
    (∀ success ∈ fetched.2, success = true) ∧
      ∀ name sha, (name, sha) ∈ w.contract.getRefs → G.reachable sha ⊆ holds fetched.1 := by
  obtain ⟨repo, hrepo, hclosed⟩ := (remotes_invariant hw).closed
  obtain ⟨repo', hrepo', hclosed'⟩ := (remotes_invariant (h.reachable hw)).closed
  have hgrown := h.isPrefix_getPacks hw
  rw [hrepo.getPacks, hrepo'.getPacks, List.drop_zero, List.drop_zero] at hgrown
  have hlog : w'.contract.getPacks 0 = repo'.log := by rw [hrepo'.getPacks, List.drop_zero]
  obtain ⟨hsuccess, hholds⟩ := doFetch_of_packsFit hindex hclosed'.packs localRepo
  rw [hlog]
  refine ⟨hsuccess, fun name sha hmem => ?_⟩
  have hclosed : G.reachable sha ⊆ gathered G.objects repo.log :=
    hclosed.refs name sha ((hrepo.mem_getRefs name sha).mp hmem)
  rw [hholds]
  exact (hclosed.trans (gathered_mono _ hgrown.subset)).trans Set.subset_union_right

/-- In a conversation where the refs are listed in one state and the packs fetched in a later one,
git gets from the fetch everything that is reachable from the refs it was told of, though clients
push in between. -/
theorem clone_while_pushed {σ : Type*} (G : GitModel) (owner : String) (account : ι → String)
    (w w' : World ι) (hw : (remotes G owner account).Reachable w) (hlater : Later G account w w')
    (env : ℕ → Surroundings) (commands : List Command)
    (hserves : ∀ (k : ℕ) command, commands[k]? = some command → Serves (env k) command)
    (k l : ℕ) (forPush : Bool) (hlist : commands[k]? = some (.list forPush))
    (hrefs : (env k).refs = some w.contract.getRefs) (first : FetchLine) (others : List FetchLine)
    (hfetch : commands[l]? = some (.fetch first others))
    (hpacks : (env l).packs = some (w'.contract.getPacks 0)) (holds : σ → Set String)
    (indexPack : σ → Bytes → σ × Bool) (hindex : G.DocumentsIndexPack holds indexPack)
    (localRepo : σ) :
    let replies := session env (script commands)
    let fetched := doFetch indexPack (w'.contract.getPacks 0) localRepo
    (∃ answers, hearAll commands (Text.lines (stdout replies)) = some answers ∧
      answers[k]? = some (.refs w.contract.getRefs (headOf w.contract.getRefs)) ∧
      answers[l]? = some .fetched) ∧
    (replies.map Reply.indexed)[l]? = some (w'.contract.getPacks 0) ∧
    (∀ success ∈ fetched.2, success = true) ∧
    ∀ name sha, (name, sha) ∈ w.contract.getRefs → G.reachable sha ⊆ holds fetched.1 := by
  have hserves : ∀ (k : ℕ) command, commands[k]? = some command → Serves (env (0 + k)) command := by
    intro k command hk
    rw [Nat.zero_add]
    exact hserves k command hk
  obtain ⟨hlines, hhear, hindexed, -⟩ := run_commands hserves false
  obtain ⟨hsuccess, hlisted⟩ := hlater.fetch_listed hw hindex localRepo
  rw [session_script]
  simp only [stdout, Text.lines_printed hlines]
  refine ⟨⟨_, hhear, ?_, ?_⟩, ?_, hsuccess, hlisted⟩
  · rw [List.getElem?_mapIdx, hlist, Option.map_some, Command.answer, Nat.zero_add, hrefs,
      Option.getD_some]
  · rw [List.getElem?_mapIdx, hfetch, Option.map_some, Command.answer]
  · rw [hindexed, List.getElem?_mapIdx, hfetch, Option.map_some, Command.indexed, Nat.zero_add,
      hpacks, Option.getD_some]

theorem later_push {i : ι} (hidle : w.batch i = none) {spec : String} {op : PushOp}
    (hspec : [spec].filterMap parseSpec = [op]) {git : Git} (hgit : G.Documents git)
    (hsucceeds : GitSucceeds git (toRefMap w.contract.getRefs) op) {packData : Bytes}
    {refUpdates : List RefUpdate} {contract : GitStorage}
    (hplan : planOp git (toRefMap w.contract.getRefs) op = .send packData refUpdates)
    (hpush : w.contract.push (account i) packData refUpdates = .ok contract) :
    ∃ w', Later G account w w' ∧ w'.contract = contract := by
  have hstart : BatchStep G account w i _ := .start [spec] hidle
  rw [hspec] at hstart
  have hstarted : Later G account w _ := .single ⟨i, hstart⟩
  have hplanned := hstarted.tail ⟨i, .plan _ op [] git packData refUpdates
    (Function.update_self ..) hgit hsucceeds hplan⟩
  exact ⟨_, hplanned.tail ⟨i, .accept _ [] packData refUpdates contract
    (Function.update_self ..) hpush⟩, rfl⟩

end Later

/-! ## A second tag is pushed between the list and the fetch -/

def againOp : PushOp where
  force := false
  srcRef := "refs/tags/again"
  dstRef := "refs/tags/again"

def againUpdate : RefUpdate where
  name := "refs/tags/again"
  oldSha := none
  newSha := sampleSha

def blobFetch : FetchLine where
  sha := sampleSha
  name := "refs/tags/blob"
  isWord_sha := by decide +kernel
  isWord_name := by decide +kernel

def blobClone : List Command := [.capabilities, .list false, .fetch blobFetch []]

def cloneServed (listed fetched : GitStorage) : Surroundings where
  credentials := false
  refs := some listed.getRefs
  packs := some (fetched.getPacks 0)
  takesPack _ := true
  git _ := sampleGit
  send _ := .success

theorem gitSucceeds_again {remoteRefMap : String → Option String}
    (hnone : remoteRefMap "refs/tags/again" = none) : GitSucceeds sampleGit remoteRefMap againOp := by
  have htrim : Text.trim (sampleSha ++ "\n") = sampleSha := by decide +kernel
  refine .inr ⟨⟨_, rfl, rfl⟩, fun o ho _ _ => ?_⟩
  cases ho
  simp [Succeeds, againOp, hnone, htrim, sampleGit]

theorem exists_pushed_twice : ∃ w w' : World Bool,
    (remotes sampleModel "alice" fun _ => "alice").Reachable w ∧
    Later sampleModel (fun _ => "alice") w w' ∧
    w.contract.getRefs = [("refs/tags/blob", sampleSha)] ∧
    w'.contract.getPacks 0 = [samplePush, samplePush] := by
  have hspec : ["push refs/tags/blob:refs/tags/blob"].filterMap parseSpec = [tagOp] := by
    decide +kernel
  have hagain : ["push refs/tags/again:refs/tags/again"].filterMap parseSpec = [againOp] := by
    decide +kernel
  have hrun : ((GitStorage.new "alice").push "alice" samplePush [tagUpdate] >>= fun s =>
      s.push "alice" samplePush [againUpdate] >>= fun s' =>
        pure (s.getRefs, s'.getPacks 0)) =
        .ok ([("refs/tags/blob", sampleSha)], [samplePush, samplePush]) := by
    decide +kernel
  obtain ⟨s, hpush, hrun⟩ := except_bind_eq_ok.mp hrun
  obtain ⟨s', hpush', hrun⟩ := except_bind_eq_ok.mp hrun
  obtain ⟨hgetRefs, hgetPacks⟩ : s.getRefs = [("refs/tags/blob", sampleSha)] ∧
      s'.getPacks 0 = [samplePush, samplePush] := by
    simpa [pure, Except.pure] using hrun
  have hplan : planOp sampleGit (toRefMap s.getRefs) againOp = .send samplePush [againUpdate] := by
    rw [hgetRefs]
    decide +kernel
  have hsucceeds : GitSucceeds sampleGit (toRefMap s.getRefs) againOp := by
    apply gitSucceeds_again
    rw [hgetRefs]
    rfl
  have hfirst : (remotes sampleModel "alice" fun _ : Bool => "alice").Reachable _ :=
    reachable_push (i := true) (.init rfl) rfl hspec documents_sampleGit
      (gitSucceeds_sample _ rfl) planOp_sample hpush
  let w : World Bool := { contract := s, batch := Function.update (fun _ => none) true none }
  have hidle : w.batch false = none := rfl
  have hsecond : ∃ w', Later sampleModel (fun _ => "alice") w w' ∧ w'.contract = s' :=
    later_push hidle hagain documents_sampleGit hsucceeds hplan hpush'
  obtain ⟨w', hlater, hcontract⟩ := hsecond
  exact ⟨w, w', hfirst, hlater, hgetRefs, hcontract ▸ hgetPacks⟩

theorem clone_while_pushed_tag : ∃ listed fetched : GitStorage,
    let replies := session (fun _ => cloneServed listed fetched) (script blobClone)
    let indexed := doFetch sampleIndexPack [samplePush, samplePush] []
    (∃ answers, hearAll blobClone (Text.lines (stdout replies)) = some answers ∧
      answers[1]? = some (.refs [("refs/tags/blob", sampleSha)] none) ∧
      answers[2]? = some .fetched) ∧
    (replies.map Reply.indexed)[2]? = some [samplePush, samplePush] ∧
    (∀ success ∈ indexed.2, success = true) ∧ sampleSha ∈ indexed.1 := by
  obtain ⟨w, w', hw, hlater, hgetRefs, hgetPacks⟩ := exists_pushed_twice
  have hlist : ∃ refs, (cloneServed w.contract w'.contract).refs = some refs ∧
      ∀ ref ∈ refs, Listable ref := by
    refine ⟨_, rfl, ?_⟩
    rw [hgetRefs, List.forall_mem_singleton]
    exact ⟨by decide +kernel, by decide +kernel, by decide +kernel, by decide +kernel⟩
  have hserves : ∀ command ∈ blobClone, Serves (cloneServed w.contract w'.contract) command := by
    simp only [blobClone, List.forall_mem_cons]
    exact ⟨trivial, hlist, ⟨_, rfl, fun _ _ => rfl⟩, List.forall_mem_nil _⟩
  obtain ⟨hanswers, hindexed, hsuccess, hholds⟩ :=
    clone_while_pushed sampleModel "alice" (fun _ => "alice") w w' hw hlater
      (fun _ => cloneServed w.contract w'.contract) blobClone
      (fun k command hk => hserves command (List.mem_of_getElem? hk)) 1 2 false rfl rfl blobFetch []
      rfl rfl _ sampleIndexPack documentsIndexPack_sample []
  rw [hgetRefs] at hanswers hholds
  rw [hgetPacks] at hindexed hsuccess hholds
  have hreached : sampleSha ∈ sampleModel.reachable sampleSha := ⟨rfl, rfl⟩
  exact ⟨w.contract, w'.contract, hanswers, hindexed, hsuccess,
    hholds "refs/tags/blob" sampleSha (List.mem_singleton_self _) hreached⟩

end NearGit.RemoteNear
