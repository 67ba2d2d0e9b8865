import NearGit.Advertisement
import NearGit.Contract.Acceptance

/-! A push from the advertisement that a client reads to the contract: it goes through exactly if
none of its refs has moved in between. -/

namespace NearGit.PushRequest

def AnyRequest.sentCommands : AnyRequest → List Command
  | .commands r => r.first :: r.others.map Prod.fst
  | .packOnly _ => []

theorem AnyRequest.updates_eq (r : AnyRequest) : r.updates = r.sentCommands.map Command.update := by
  cases r with
  | commands r =>
    rw [updates, sentCommands, Commands.updates, List.map_cons, List.map_map]
    rfl
  | packOnly => rfl

theorem AnyRequest.trimmed_eq {r : AnyRequest} (h : r.NamesKept) : r.trimmed = r.updates := by
  cases r with
  | commands r =>
    have hothers : (r.others.map fun o => o.1.trimmed) = r.others.map fun o => o.1.update :=
      List.map_congr_left fun o ho => o.1.trimmed_eq_update_iff.mpr (h o ho)
    rw [trimmed, updates, Commands.updates, hothers]
  | packOnly => rfl

end NearGit.PushRequest

namespace NearGit.OptimisticPush
open Lib NearGit.Contract NearGit.PushRequest
open NearGit.Advertisement (Advertised advertised)
open NearGit.GitServer (zeroSha)
open NearGit.FrontEnds (Served)

/-- No two commands are for one ref, and each has as its old SHA what the advertisement says, or
zeros where it does not have the ref. -/
structure MadeFrom (adv : Advertised) (r : AnyRequest) : Prop where
  nodup : r.names.Nodup
  oldSha : ∀ c ∈ r.sentCommands,
    String.ofList c.oldSha = (adv.refs.lookup (String.ofList c.name)).getD zeroSha

theorem MadeFrom.oldSha_update {adv : Advertised} {r : AnyRequest} (h : MadeFrom adv r) :
    ∀ u ∈ r.updates, u.name ≠ "HEAD" ∧
      u.oldSha = (adv.refs.lookup u.name).filter (· ≠ zeroSha) := by
  rw [r.updates_eq]
  refine List.forall_mem_map.mpr fun c hc => ⟨fun hhead => ?_, ?_⟩
  · have hslash : '/' ∈ ("HEAD" : String).toList := by
      rw [← hhead, Command.update, String.toList_ofList]
      exact c.slash_mem_name
    exact absurd hslash (by decide)
  · have hold := h.oldSha c hc
    have hzeros : c.oldSha = zeros ↔ String.ofList c.oldSha = zeroSha := String.ofList_inj.symm
    rw [Command.update]
    simp only [hzeros]
    rcases hadv : adv.refs.lookup (String.ofList c.name) with _ | sha
    · rw [hadv, Option.getD_none] at hold
      rw [if_pos hold, Option.filter_none]
    · rw [hadv, Option.getD_some] at hold
      by_cases hsha : sha = zeroSha
      · rw [hold, if_pos hsha, Option.filter_some_neg (by simpa using hsha)]
      · rw [hold, if_neg hsha, Option.filter_some_pos (by simpa using hsha)]

theorem lookup_advertised (refs : List (String × String)) {name : String} (h : name ≠ "HEAD") :
    (advertised refs).refs.lookup name = refs.lookup name := by
  unfold advertised
  split
  · next hnone =>
    rw [Advertisement.headRef_eq_none.mp hnone]
  · rw [List.lookup_cons, beq_false_of_ne h]

end NearGit.OptimisticPush

namespace NearGit.FrontEnds.Served
open NearGit.PushRequest NearGit.Contract

def request : Served → AnyRequest
  | .gitServer _ _ r => r
  | .serviceWorker _ _ _ r => r

def NamesKept : Served → Prop
  | .gitServer _ _ _ => True
  | .serviceWorker _ _ _ r => r.NamesKept

theorem updates_eq {served : Served} (h : served.NamesKept) :
    served.updates = served.request.updates := by
  cases served with
  | gitServer => rfl
  | serviceWorker C accountId rpc r => exact AnyRequest.trimmed_eq h

end NearGit.FrontEnds.Served

namespace NearGit.OptimisticPush
open Lib NearGit.Contract NearGit.PushRequest
open NearGit.Advertisement (Advertised advertised HeadFits)
open NearGit.GitServer (zeroSha)
open NearGit.FrontEnds (Served)

/-- A client reads the advertisement, and makes a request of it that is served after any other
transactions. The contract accepts it exactly if it is sent and executed for the owner, there is
room for its pack, and every ref of it is where it was advertised, where zeros are no SHA. Then
exactly those refs are set. -/
theorem push_accepted_iff_unmoved (owner service : String) (before : List Served)
    (hservice : (Utf8.encode s!"# service={service}\n").length ≤ 65531)
    (hhead : HeadFits (FrontEnds.stateAfter owner before).getRefs) {adv : Advertised}
    (hread : Advertisement.read service (GitServer.handleInfoRefs service
      (FrontEnds.stateAfter owner before).getRefs) = some adv)
    (between : List Tx) {served : Served} (hmade : MadeFrom adv served.request)
    (hkept : served.NamesKept) :
    let shown := FrontEnds.stateAfter owner before
    let now := Guarded.run GitStorage.exec shown between
    ((served.handle now).accepted ≠ [] ↔
      (∃ args packData, served.sent = some (args, packData) ∧
        (packData = [] ∨ now.packCount + 1 < 2 ^ 32)) ∧
      served.delivery.executed = true ∧ served.caller = owner ∧
      ∀ u ∈ served.request.updates,
        now.refs.get u.name = (shown.refs.get u.name).filter (· ≠ zeroSha)) ∧
    ((served.handle now).accepted ≠ [] →
      (∀ u ∈ served.request.updates,
        (served.handle now).contract.refs.get u.name = some u.newSha) ∧
      ∀ name, name ∉ served.request.names →
        (served.handle now).contract.refs.get name = now.refs.get name) := by
  intro shown now
  obtain ⟨shownRepo, hshown, hfirst, -⟩ := FrontEnds.stateAfter_clean owner before
  obtain rfl : adv = advertised shown.getRefs :=
    Option.some.inj (hread.symm.trans (Advertisement.read_stateAfter owner before hservice hhead))
  obtain ⟨repo, hnow, howner⟩ := run_represents hshown between
  rw [hfirst] at howner
  have hupdates := FrontEnds.Served.updates_eq hkept
  have hnodup : (served.updates.map RefUpdate.name).Nodup := hupdates ▸ hmade.nodup
  have hunmoved : (∀ u ∈ served.request.updates,
      now.refs.get u.name = (shown.refs.get u.name).filter (· ≠ zeroSha)) ↔
        ∀ u ∈ served.updates, repo.refs u.name = u.oldSha := by
    rw [hupdates]
    refine forall₂_congr fun u hu => ?_
    obtain ⟨hhead, hold⟩ := hmade.oldSha_update u hu
    rw [hold, lookup_advertised _ hhead, lookup_getRefs, hnow.refs]
  constructor
  · rw [hunmoved, Served.accepted_iff]
    constructor
    · rintro ⟨args, packData, hsent, hexecuted, hpush⟩
      obtain ⟨hcaller, hroom, hall⟩ := (push_isOk_iff hnow hnodup).mp hpush
      exact ⟨⟨args, packData, hsent, hroom⟩, hexecuted, hcaller.trans howner, hall⟩
    · rintro ⟨⟨args, packData, hsent, hroom⟩, hexecuted, hcaller, hall⟩
      exact ⟨args, packData, hsent, hexecuted,
        (push_isOk_iff hnow hnodup).mpr ⟨hcaller.trans howner.symm, hroom, hall⟩⟩
  · intro haccepted
    rcases served.handle_cases now with ⟨hnone, -⟩ | ⟨args, packData, -, -, -, hpush⟩
    · exact absurd hnone haccepted
    · have hset := push_refs hnow hnodup hpush
      rw [hupdates] at hset
      refine ⟨hset.1, fun name hname => hset.2 name fun u hu heq => hname ?_⟩
      exact heq ▸ List.mem_map_of_mem hu

def moveA : Request where
  first := {
    oldSha := createA.first.newSha
    newSha := List.replicate 40 'c'
    name := createA.first.name
    isSha_oldSha := createA.first.isSha_newSha
    isSha_newSha := by decide
    checkRefFormat_name := createA.first.checkRefFormat_name }
  firstLf := true
  capabilities := []
  others := []
  pack := []
  length_payload_le := List.forall_mem_singleton.mpr (by decide)

def moveServed : Served := .gitServer "alice" (.answered "") (.commands moveA)

theorem sent_moveServed : ∃ args, moveServed.sent = some (args, []) := by
  obtain ⟨args, hargs⟩ : ∃ args, GitServer.encodePushArgs moveA.pack moveA.updates = .ok args :=
    ⟨_, rfl⟩
  have hsent : GitServer.sentPush moveA.body = some args := by
    obtain ⟨hupdates, hpack⟩ := gitServer_decodes moveA
    rw [GitServer.sentPush, hupdates, hpack, hargs]
    rfl
  refine ⟨args, ?_⟩
  rw [moveServed, Served.sent, AnyRequest.body, hsent]
  rfl

theorem madeFrom_moveA :
    MadeFrom (advertised [("refs/a", String.ofList (List.replicate 40 'b'))])
      moveServed.request where
  nodup := List.nodup_singleton _
  oldSha := List.forall_mem_singleton.mpr (by decide)

theorem push_moveServed :
    let now := FrontEnds.stateAfter "alice" [Advertisement.createServed]
    (moveServed.handle now).accepted ≠ [] ∧
      (moveServed.handle now).contract.refs.get "refs/a" =
        some (String.ofList (List.replicate 40 'c')) := by
  intro now
  have hread : Advertisement.read "git-receive-pack" (GitServer.handleInfoRefs "git-receive-pack"
      now.getRefs) = some (advertised now.getRefs) :=
    Advertisement.read_stateAfter "alice" [Advertisement.createServed] (by decide)
      Advertisement.headFits_createServed
  obtain ⟨args, hsent⟩ := sent_moveServed
  have hmade : MadeFrom (advertised now.getRefs) moveServed.request := by
    rw [Advertisement.getRefs_createServed]
    exact madeFrom_moveA
  obtain ⟨hiff, hset⟩ := push_accepted_iff_unmoved "alice" "git-receive-pack"
    [Advertisement.createServed] (by decide) Advertisement.headFits_createServed hread [] hmade
    trivial
  have haccepted : (moveServed.handle now).accepted ≠ [] := by
    refine hiff.mpr ⟨⟨args, [], hsent, .inl rfl⟩, rfl, rfl, List.forall_mem_singleton.mpr ?_⟩
    rw [Guarded.run_nil, ← lookup_getRefs, Advertisement.getRefs_createServed]
    decide
  exact ⟨haccepted, (hset haccepted).1 _ (List.mem_singleton_self _)⟩

end NearGit.OptimisticPush
