import NearGit.Contract.History
import NearGit.Lib.Log
import NearGit.Lib.System
import NearGit.Packfile.RoundTrip
import NearGit.RemoteNear.GitFailure

/-! Any number of git-remote-near clients and one contract. What git does is given by what its
commands are documented to do. -/

namespace NearGit.RemoteNear
open Lib NearGit.Packfile NearGit.Contract

/-! ## Git -/

/-- The objects behind a SHA, and what is in a pack: its objects, and the bases of its deltas
that it does not hold itself. -/
structure GitModel where
  reachable : String → Set String
  IsPack : Bytes → Prop
  objects : Bytes → Set String
  bases : Bytes → Set String
  not_isPack_nil : ¬ IsPack []

namespace GitModel

def reachableFrom (G : GitModel) : Option String → Set String
  | some sha => G.reachable sha
  | none => ∅

/-- `rev-list --objects new --not old` and `pack-objects --revs --thin` cover exactly what is
reachable from `new` and not from `old`, and only what is reachable from `old` is an external
base. -/
structure Documents (G : GitModel) (git : Git) : Prop where
  revList : ∀ new old o, git.revList (revListArgs new old) = some o → o.success = true →
    {sha | sha ∈ (Text.lines o.stdout).filterMap lineSha} = G.reachable new \ G.reachableFrom old
  packObjects : ∀ new old o, git.packObjects (packObjectsStdin new old) = some o →
    o.success = true → G.IsPack o.stdout ∧
      G.objects o.stdout = G.reachable new \ G.reachableFrom old ∧
      G.bases o.stdout ⊆ G.reachableFrom old

end GitModel

/-! ## Fetching -/

section Fetch
variable {σ : Type*}

/-- `do_fetch`: every pack goes to `index-pack --stdin --fix-thin`, and whether it succeeded is
only reported. -/
def doFetch (indexPack : σ → Bytes → σ × Bool) (packs : List Bytes) (localRepo : σ) :
    σ × List Bool :=
  packs.foldl (fun (localRepo, indexed) packData =>
    let (localRepo, success) := indexPack localRepo packData
    (localRepo, indexed ++ [success])) (localRepo, [])

theorem doFetch_concat (indexPack : σ → Bytes → σ × Bool) (packs : List Bytes) (packData : Bytes)
    (localRepo : σ) :
    doFetch indexPack (packs ++ [packData]) localRepo =
      let fetched := doFetch indexPack packs localRepo
      let indexed := indexPack fetched.1 packData
      (indexed.1, fetched.2 ++ [indexed.2]) := by
  unfold doFetch
  rw [List.foldl_append]
  rfl

/-- `index-pack --fix-thin` takes a pack whose external bases are in the repository. -/
def GitModel.DocumentsIndexPack (G : GitModel) (holds : σ → Set String)
    (indexPack : σ → Bytes → σ × Bool) : Prop :=
  ∀ localRepo packData, G.IsPack packData → G.bases packData ⊆ holds localRepo →
    (indexPack localRepo packData).2 = true ∧
      holds (indexPack localRepo packData).1 = holds localRepo ∪ G.objects packData

def GitModel.PackFits (G : GitModel) (before : List Bytes) (packData : Bytes) : Prop :=
  G.IsPack packData ∧ G.bases packData ⊆ gathered G.objects before

theorem doFetch_of_packsFit {G : GitModel} {holds : σ → Set String}
    {indexPack : σ → Bytes → σ × Bool} (hindex : G.DocumentsIndexPack holds indexPack)
    {packs : List Bytes} (hpacks : EachAfter G.PackFits packs) (localRepo : σ) :
    (∀ success ∈ (doFetch indexPack packs localRepo).2, success = true) ∧
      holds (doFetch indexPack packs localRepo).1 =
        holds localRepo ∪ gathered G.objects packs := by
  induction packs using List.reverseRecOn with
  | nil => simp [doFetch]
  | append_singleton packs packData ih =>
    obtain ⟨hbefore, hpack, hbases⟩ := eachAfter_concat.mp hpacks
    obtain ⟨hsuccess, hholds⟩ := ih hbefore
    have hfound : G.bases packData ⊆ holds (doFetch indexPack packs localRepo).1 := by
      rw [hholds]
      exact hbases.trans Set.subset_union_right
    obtain ⟨hindexed, hobjects⟩ := hindex _ _ hpack hfound
    rw [doFetch_concat]
    constructor
    · intro success hmem
      rcases List.mem_append.mp hmem with hmem | hmem
      · exact hsuccess success hmem
      · rw [List.mem_singleton.mp hmem]
        exact hindexed
    · simp only [hobjects, hholds, gathered_append, gathered_singleton, Set.union_assoc]

end Fetch

/-! ## The repository -/

structure RefsClosed (G : GitModel) (r : Repo) : Prop where
  refs : ∀ name sha, r.refs name = some sha → G.reachable sha ⊆ gathered G.objects r.log
  packs : EachAfter G.PackFits r.log

theorem refsClosed_empty (G : GitModel) : RefsClosed G .empty where
  refs _ _ h := by simp [Repo.empty] at h
  packs := eachAfter_nil _

def Covers (G : GitModel) (packData : Bytes) (u : RefUpdate) : Prop :=
  packData = [] ∧ G.reachable u.newSha ⊆ G.reachableFrom u.oldSha ∨
    G.IsPack packData ∧ G.bases packData ⊆ G.reachableFrom u.oldSha ∧
      G.reachable u.newSha ⊆ G.reachableFrom u.oldSha ∪ G.objects packData

theorem RefsClosed.reachableFrom {G : GitModel} {r : Repo} (h : RefsClosed G r) {name : String}
    {oldSha : Option String} (hold : r.refs name = oldSha) :
    G.reachableFrom oldSha ⊆ gathered G.objects r.log := by
  cases oldSha with
  | none => exact Set.empty_subset _
  | some old => exact h.refs name old hold

theorem RefsClosed.push {G : GitModel} {r r' : Repo} {packData : Bytes} {u : RefUpdate}
    (h : RefsClosed G r) (hcovers : Covers G packData u)
    (hexec : r.exec (.push packData [u]) = some r') : RefsClosed G r' := by
  obtain ⟨hfound, rfl⟩ := Repo.exec_push_singleton.mp hexec
  have hold := h.reachableFrom hfound
  have hrefs (log : List Bytes) (hlog : r.log ⊆ log)
      (hnew : G.reachable u.newSha ⊆ gathered G.objects log) (name sha : String)
      (hsha : Function.update r.refs u.name (some u.newSha) name = some sha) :
      G.reachable sha ⊆ gathered G.objects log := by
    rcases eq_or_ne name u.name with rfl | hne
    · rw [Function.update_self, Option.some.injEq] at hsha
      exact hsha ▸ hnew
    · rw [Function.update_of_ne hne] at hsha
      exact (h.refs name sha hsha).trans (gathered_mono _ hlog)
  rcases hcovers with ⟨rfl, hreach⟩ | ⟨hpack, hbases, hreach⟩
  · -- an empty pack is not stored: the old SHA reaches all that the new one does
    rw [if_pos rfl, List.append_nil]
    exact ⟨hrefs r.log (List.Subset.refl _) (hreach.trans hold), h.packs⟩
  · have hne : packData ≠ [] := by
      rintro rfl
      exact G.not_isPack_nil hpack
    rw [if_neg hne]
    refine ⟨hrefs _ (List.subset_append_left ..) ?_, ?_⟩
    · rw [gathered_append, gathered_singleton]
      exact hreach.trans (Set.union_subset_union_left _ hold)
    · exact eachAfter_concat.mpr ⟨h.packs, hpack, hbases.trans hold⟩

/-! ## One op -/

theorem planOp_covers {G : GitModel} {git : Git} {remoteRefMap : String → Option String}
    {op : PushOp} {packData : Bytes} {refUpdates : List RefUpdate} (hgit : G.Documents git)
    (hsucceeds : GitSucceeds git remoteRefMap op)
    (hplan : planOp git remoteRefMap op = .send packData refUpdates) :
    ∃ u, refUpdates = [u] ∧ Covers G packData u := by
  unfold planOp at hplan
  split_ifs at hplan with hsrc
  simp only at hplan
  split_ifs at hplan with hsha hnew
  · -- nothing is new, so the old SHA reaches all that the new one does
    obtain ⟨rfl, rfl⟩ := Plan.send.inj hplan
    have hhistory := (hsucceeds.resolve_left hsrc).2
    obtain ⟨⟨o, ho, hsuccess⟩, -⟩ := hhistory.resolved hsha
    have hlist := hgit.revList _ _ o ho hsuccess
    unfold collectNewShas at hnew
    simp only [ho, hsuccess, if_true] at hnew
    rw [hnew] at hlist
    have hempty : G.reachable (resolveLocalRef git op.srcRef) \
        G.reachableFrom (remoteRefMap op.dstRef) = ∅ := by
      rw [← hlist]
      simp
    exact ⟨_, rfl, .inl ⟨rfl, Set.sdiff_eq_empty.mp hempty⟩⟩
  · have hhistory := (hsucceeds.resolve_left hsrc).2
    obtain ⟨-, hpack⟩ := hhistory.resolved hsha
    rw [collectNewShas_eq_nil, not_not] at hnew
    obtain ⟨o, ho, hsuccess⟩ := hpack hnew.2
    obtain ⟨hisPack, hobjects, hbases⟩ := hgit.packObjects _ _ o ho hsuccess
    simp only [buildPackfile, ho, Option.map_some] at hplan
    obtain ⟨rfl, rfl⟩ := Plan.send.inj hplan
    refine ⟨_, rfl, .inr ⟨hisPack, hbases, ?_⟩⟩
    rw [hobjects, Set.union_sdiff_self]
    exact Set.subset_union_right

/-! ## The system -/

structure Batch where
  remoteRefMap : String → Option String
  ops : List PushOp
  pending : Option (Bytes × List RefUpdate)

structure World (ι : Type*) where
  contract : GitStorage
  batch : ι → Option Batch

section System
variable {ι : Type*} [DecidableEq ι]

def World.setBatch (w : World ι) (i : ι) (batch : Option Batch) : World ι :=
  { w with batch := Function.update w.batch i batch }

/-- A step of client `i`; its git commands succeed, with documented results. A client can end
its batch at any point. -/
inductive BatchStep (G : GitModel) (account : ι → String) (w : World ι) (i : ι) : World ι → Prop
  | start (pushSpecs : List String) : w.batch i = none →
      BatchStep G account w i (w.setBatch i (some
        { remoteRefMap := toRefMap w.contract.getRefs, ops := pushSpecs.filterMap parseSpec,
          pending := none }))
  | report (remoteRefMap : String → Option String) (op : PushOp) (ops : List PushOp) (git : Git)
      (line : String) :
      w.batch i = some { remoteRefMap, ops := op :: ops, pending := none } →
      G.Documents git → GitSucceeds git remoteRefMap op →
      planOp git remoteRefMap op = .report line →
      BatchStep G account w i (w.setBatch i (some { remoteRefMap, ops, pending := none }))
  | plan (remoteRefMap : String → Option String) (op : PushOp) (ops : List PushOp) (git : Git)
      (packData : Bytes) (refUpdates : List RefUpdate) :
      w.batch i = some { remoteRefMap, ops := op :: ops, pending := none } →
      G.Documents git → GitSucceeds git remoteRefMap op →
      planOp git remoteRefMap op = .send packData refUpdates →
      BatchStep G account w i
        (w.setBatch i (some { remoteRefMap, ops, pending := some (packData, refUpdates) }))
  | accept (remoteRefMap : String → Option String) (ops : List PushOp) (packData : Bytes)
      (refUpdates : List RefUpdate) (contract : GitStorage) :
      w.batch i = some { remoteRefMap, ops, pending := some (packData, refUpdates) } →
      w.contract.push (account i) packData refUpdates = .ok contract →
      BatchStep G account w i
        { (w.setBatch i (some { remoteRefMap, ops, pending := none })) with contract }
  | reject (remoteRefMap : String → Option String) (ops : List PushOp) (packData : Bytes)
      (refUpdates : List RefUpdate) (e : ContractPanic) :
      w.batch i = some { remoteRefMap, ops, pending := some (packData, refUpdates) } →
      w.contract.push (account i) packData refUpdates = .error e →
      BatchStep G account w i (w.setBatch i (some { remoteRefMap, ops, pending := none }))
  | stop : BatchStep G account w i (w.setBatch i none)

def remotes (G : GitModel) (owner : String) (account : ι → String) : System (World ι) where
  init := {{ contract := .new owner, batch := fun _ => none }}
  step w w' := (∃ i, BatchStep G account w i w') ∨
    ∃ caller contract, w.contract.clearStorage caller = .ok contract ∧ w' = { w with contract }

structure World.Invariant (G : GitModel) (w : World ι) : Prop where
  closed : ∃ repo, w.contract.Represents repo ∧ RefsClosed G repo
  pending : ∀ i remoteRefMap ops packData refUpdates,
    w.batch i = some { remoteRefMap, ops, pending := some (packData, refUpdates) } →
      ∃ u, refUpdates = [u] ∧ Covers G packData u

variable {G : GitModel} {account : ι → String} {w w' : World ι} {i : ι}

theorem World.Invariant.setBatch (h : w.Invariant G) (batch : Option Batch)
    (hbatch : ∀ remoteRefMap ops packData refUpdates,
      batch = some { remoteRefMap, ops, pending := some (packData, refUpdates) } →
        ∃ u, refUpdates = [u] ∧ Covers G packData u) : (w.setBatch i batch).Invariant G := by
  refine ⟨h.closed, fun j remoteRefMap ops packData refUpdates hj => ?_⟩
  rcases eq_or_ne j i with rfl | hne
  · exact hbatch remoteRefMap ops packData refUpdates (by simpa [World.setBatch] using hj)
  · exact h.pending j remoteRefMap ops packData refUpdates (by simpa [World.setBatch, hne] using hj)

omit [DecidableEq ι] in
theorem World.Invariant.setContract (h : w.Invariant G) {contract : GitStorage} {repo : Repo}
    (hrepo : contract.Represents repo) (hclosed : RefsClosed G repo) :
    World.Invariant G { w with contract } :=
  ⟨⟨repo, hrepo, hclosed⟩, h.pending⟩

theorem BatchStep.invariant (h : w.Invariant G) (hstep : BatchStep G account w i w') :
    w'.Invariant G := by
  cases hstep with
  | start => exact h.setBatch _ (by simp)
  | report => exact h.setBatch _ (by simp)
  | plan remoteRefMap op ops git packData refUpdates _ hgit hsucceeds hplan =>
    apply h.setBatch
    intro remoteRefMap' ops' packData' refUpdates' heq
    cases heq
    exact planOp_covers hgit hsucceeds hplan
  | accept remoteRefMap ops packData refUpdates contract hbatch hpush =>
    obtain ⟨repo, hrepo, hclosed⟩ := h.closed
    obtain ⟨u, rfl, hcovers⟩ := h.pending i remoteRefMap ops packData refUpdates hbatch
    have hexec : w.contract.exec { predecessor := account i, call := .push packData [u] } =
        .ok contract := hpush
    obtain ⟨⟨repo', hstep, hrepo'⟩, -⟩ := exec_represents hrepo hexec
    have hidle : (w.setBatch i (some { remoteRefMap, ops, pending := none })).Invariant G :=
      h.setBatch _ (by simp)
    exact hidle.setContract hrepo' (hclosed.push hcovers hstep)
  | reject => exact h.setBatch _ (by simp)
  | stop => exact h.setBatch _ (by simp)

theorem remotes_invariant {owner : String} (h : (remotes G owner account).Reachable w) :
    w.Invariant G := by
  refine System.Reachable.invariant ?_ ?_ h
  · rintro w rfl
    exact ⟨⟨.empty, represents_new owner, refsClosed_empty G⟩, by simp⟩
  · rintro w w' hw (⟨i, hstep⟩ | ⟨caller, contract, hclear, rfl⟩)
    · exact hstep.invariant hw
    · obtain ⟨repo, hrepo, -⟩ := hw.closed
      rw [clearStorage_eq_new hrepo hclear]
      exact hw.setContract (represents_new _) (refsClosed_empty G)

/-- Whatever the interleaving, what is reachable from a ref is in the stored packs, each pack has
its external bases before it, and a fetch indexes every pack and gets the refs with all that is
reachable from them. -/
theorem refs_closed {σ : Type*} (G : GitModel) (owner : String) (account : ι → String)
    (w : World ι) (hw : (remotes G owner account).Reachable w) (holds : σ → Set String)
    (indexPack : σ → Bytes → σ × Bool) (hindex : G.DocumentsIndexPack holds indexPack)
    (localRepo : σ) :
    (∀ name sha, (name, sha) ∈ w.contract.getRefs →
      G.reachable sha ⊆ gathered G.objects (w.contract.getPacks 0)) ∧
    EachAfter G.PackFits (w.contract.getPacks 0) ∧
    (∀ success ∈ (doFetch indexPack (w.contract.getPacks 0) localRepo).2, success = true) ∧
    ∀ name sha, (name, sha) ∈ w.contract.getRefs →
      G.reachable sha ⊆ holds (doFetch indexPack (w.contract.getPacks 0) localRepo).1 := by
  obtain ⟨repo, hrepo, hclosed⟩ := (remotes_invariant hw).closed
  have hlog : w.contract.getPacks 0 = repo.log := by rw [hrepo.getPacks, List.drop_zero]
  have hrefs : ∀ name sha, (name, sha) ∈ w.contract.getRefs →
      G.reachable sha ⊆ gathered G.objects repo.log :=
    fun name sha hmem => hclosed.refs name sha ((hrepo.mem_getRefs name sha).mp hmem)
  obtain ⟨hsuccess, hholds⟩ := doFetch_of_packsFit hindex hclosed.packs localRepo
  rw [hlog, hholds]
  exact ⟨hrefs, hclosed.packs, hsuccess, fun name sha hmem =>
    (hrefs name sha hmem).trans Set.subset_union_right⟩

theorem reachable_push {owner : String} (hw : (remotes G owner account).Reachable w)
    (hidle : w.batch i = none) {spec : String} {op : PushOp}
    (hspec : [spec].filterMap parseSpec = [op]) {git : Git} (hgit : G.Documents git)
    (hsucceeds : GitSucceeds git (toRefMap w.contract.getRefs) op) {packData : Bytes}
    {refUpdates : List RefUpdate} {contract : GitStorage}
    (hplan : planOp git (toRefMap w.contract.getRefs) op = .send packData refUpdates)
    (hpush : w.contract.push (account i) packData refUpdates = .ok contract) :
    (remotes G owner account).Reachable
      { contract, batch := Function.update w.batch i none } := by
  have hstart := hw.step (.inl ⟨i, .start [spec] hidle⟩)
  rw [hspec] at hstart
  have hplanned := hstart.step (.inl ⟨i, .plan _ op [] git packData refUpdates
    (Function.update_self ..) hgit hsucceeds hplan⟩)
  have haccepted := hplanned.step (.inl ⟨i, .accept _ [] packData refUpdates contract
    (Function.update_self ..) hpush⟩)
  have hstopped := haccepted.step (.inl ⟨i, .stop⟩)
  simpa [World.setBatch, Function.update_idem] using hstopped

end System

/-! ## A tag that is pushed, cleared and pushed again -/

def sampleSha : String := (sampleBlob 40 1).sha1 referenceCrates

def samplePush : Bytes := (build .w64 referenceCrates [sampleBlob 40 1]).toOption.getD []

def tagOp : PushOp where
  force := false
  srcRef := "refs/tags/blob"
  dstRef := "refs/tags/blob"

def tagUpdate : RefUpdate where
  name := "refs/tags/blob"
  oldSha := none
  newSha := sampleSha

def sampleGit : Git where
  revParse _ := some { success := true, stdout := sampleSha ++ "\n" }
  revList args :=
    if args = revListArgs sampleSha none then some { success := true, stdout := sampleSha ++ "\n" }
    else some { success := false, stdout := "" }
  packObjects stdin :=
    if stdin = packObjectsStdin sampleSha none then some { success := true, stdout := samplePush }
    else some { success := false, stdout := [] }

def sampleModel : GitModel where
  reachable sha := {x | x = sampleSha ∧ sha = sampleSha}
  IsPack packData := packData = samplePush
  objects packData := {x | x = sampleSha ∧ packData = samplePush}
  bases _ := ∅
  not_isPack_nil := by decide +kernel

theorem documents_sampleGit : sampleModel.Documents sampleGit where
  revList new old o ho hsuccess := by
    simp only [sampleGit] at ho
    split_ifs at ho with hargs
    · cases ho
      cases old with
      | some old => simp [revListArgs] at hargs
      | none =>
        have hnew : new = sampleSha := by simpa [revListArgs] using hargs
        have hlines : (Text.lines (sampleSha ++ "\n")).filterMap lineSha = [sampleSha] := by
          decide +kernel
        simp [hnew, hlines, GitModel.reachableFrom, sampleModel]
    · cases ho
      cases hsuccess
  packObjects new old o ho hsuccess := by
    simp only [sampleGit] at ho
    split_ifs at ho with hstdin
    · cases ho
      cases old with
      | some old => simp [packObjectsStdin] at hstdin
      | none =>
        have hnew : new = sampleSha := by simpa [packObjectsStdin] using hstdin
        simp [hnew, GitModel.reachableFrom, sampleModel]
    · cases ho
      cases hsuccess

def sampleIndexPack (localRepo : List String) (packData : Bytes) : List String × Bool :=
  if packData = samplePush then (localRepo ++ [sampleSha], true) else (localRepo, false)

theorem documentsIndexPack_sample :
    sampleModel.DocumentsIndexPack (fun localRepo => {x | x ∈ localRepo}) sampleIndexPack := by
  intro localRepo packData hpack _
  have hpack : packData = samplePush := hpack
  subst hpack
  refine ⟨by simp [sampleIndexPack], ?_⟩
  ext x
  simp [sampleIndexPack, sampleModel, or_comm]

theorem gitSucceeds_sample (remoteRefMap : String → Option String)
    (hnone : remoteRefMap "refs/tags/blob" = none) :
    GitSucceeds sampleGit remoteRefMap tagOp := by
  have htrim : Text.trim (sampleSha ++ "\n") = sampleSha := by decide +kernel
  refine .inr ⟨⟨_, rfl, rfl⟩, fun o ho _ _ => ?_⟩
  cases ho
  simp [Succeeds, tagOp, hnone, htrim, sampleGit]

theorem planOp_sample : planOp sampleGit (toRefMap (GitStorage.new "alice").getRefs) tagOp =
    .send samplePush [tagUpdate] := by
  decide +kernel

theorem refs_closed_tagAgain : ∃ w : World Bool,
    (remotes sampleModel "alice" fun _ => "alice").Reachable w ∧
    w.contract.getRefs = [("refs/tags/blob", sampleSha)] ∧
    (∀ name sha, (name, sha) ∈ w.contract.getRefs →
      sampleModel.reachable sha ⊆ gathered sampleModel.objects (w.contract.getPacks 0)) ∧
    EachAfter sampleModel.PackFits (w.contract.getPacks 0) ∧
    (∀ success ∈ (doFetch sampleIndexPack (w.contract.getPacks 0) []).2, success = true) ∧
    ∀ name sha, (name, sha) ∈ w.contract.getRefs →
      sampleModel.reachable sha ⊆
        {x | x ∈ (doFetch sampleIndexPack (w.contract.getPacks 0) []).1} := by
  have hspec : ["push refs/tags/blob:refs/tags/blob"].filterMap parseSpec = [tagOp] := by
    decide +kernel
  have hsucceeds : GitSucceeds sampleGit (toRefMap (GitStorage.new "alice").getRefs) tagOp :=
    gitSucceeds_sample _ rfl
  have hrun : ((GitStorage.new "alice").push "alice" samplePush [tagUpdate] >>= fun s =>
      s.clearStorage "alice" >>= fun _ => pure s.getRefs) =
        .ok [("refs/tags/blob", sampleSha)] := by
    decide +kernel
  obtain ⟨s, hpush, hrun⟩ := except_bind_eq_ok.mp hrun
  obtain ⟨s', hclear, hrun⟩ := except_bind_eq_ok.mp hrun
  have hgetRefs : s.getRefs = [("refs/tags/blob", sampleSha)] := by
    simpa [pure, Except.pure] using hrun
  have hexec : (GitStorage.new "alice").exec
      { predecessor := "alice", call := .push samplePush [tagUpdate] } = .ok s := hpush
  obtain ⟨⟨repo, -, hrepo⟩, howner, -⟩ := exec_represents (represents_new "alice") hexec
  have hnew : s' = GitStorage.new "alice" := by
    rw [clearStorage_eq_new hrepo hclear, howner]
    rfl
  subst hnew
  have hfirst : (remotes sampleModel "alice" fun _ : Bool => "alice").Reachable _ :=
    reachable_push (i := true) (.init rfl) rfl hspec documents_sampleGit hsucceeds planOp_sample
      hpush
  have hcleared := hfirst.step (.inr ⟨"alice", _, hclear, rfl⟩)
  have hsecond : (remotes sampleModel "alice" fun _ : Bool => "alice").Reachable _ :=
    reachable_push (i := false) hcleared (by simp) hspec documents_sampleGit hsucceeds
      planOp_sample hpush
  exact ⟨_, hsecond, hgetRefs, refs_closed sampleModel "alice" _ _ hsecond _ sampleIndexPack
    documentsIndexPack_sample []⟩

end NearGit.RemoteNear
