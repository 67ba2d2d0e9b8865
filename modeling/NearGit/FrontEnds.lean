import NearGit.ReportStatus

/-! Requests of git clients to git-server and to the service worker, in any order: what can be
written into the refs this way. -/

namespace NearGit.ServiceWorker
open Lib NearGit.Packfile

theorem packToPush_eq_some {C : Crates} {rpc : Rpc} {rest pack : Bytes}
    (h : packToPush C rpc rest = some pack) : pack.length < 2 ^ 32 ∧
      ∃ views, rpc.views = some views ∧ packData C views rest = .ok pack := by
  simp only [packToPush, Option.bind_eq_bind, Option.bind_eq_some_iff] at h
  obtain ⟨newObjects, hnew, views, hviews, data, hpack, h⟩ := h
  split_ifs at h with hlt
  cases h
  refine ⟨hlt, views, hviews, ?_⟩
  rw [packData, Outcome.toOption_eq_some.mp hnew, Outcome.ok_bind]
  exact Outcome.toOption_eq_some.mp hpack

end NearGit.ServiceWorker

namespace NearGit.Contract
open Lib

theorem push_represents {s s' : GitStorage} {repo : Repo} (hs : s.Represents repo)
    {caller : String} {packData : Bytes} {us : List RefUpdate}
    (hpush : s.push caller packData us = .ok s') :
    ∃ repo', s'.Represents repo' ∧ s'.owner = s.owner ∧
      repo'.log = repo.log ++ (if packData = [] then [] else [packData]) ∧
      ∀ name sha, repo'.refs name = some sha → repo.refs name = some sha ∨
        ∃ u ∈ us, u.name = name ∧ u.newSha = sha := by
  have hexec : s.exec { predecessor := caller, call := .push packData us } = .ok s' := hpush
  obtain ⟨⟨repo', hstep, hrepo'⟩, howner, -⟩ := exec_represents hs hexec
  obtain ⟨refs, happly, rfl⟩ := Repo.exec_push.mp hstep
  refine ⟨_, hrepo', howner, rfl, fun name sha h => ?_⟩
  rcases CasMap.applyAll_eq_some happly h with hold | ⟨x, hx, hkey, hvalue⟩
  · exact .inl hold
  · obtain ⟨u, hu, rfl⟩ := update_mem_map.mp hx
    exact .inr ⟨u, hu, hkey, hvalue⟩

end NearGit.Contract

namespace NearGit.PushRequest
open Lib NearGit.Contract

theorem AnyRequest.carried_trimmed (r : AnyRequest) :
    r.trimmed.map ServiceWorker.carried = r.trimmed := by
  have hcommand (c : Command) : c.update.oldSha ≠ some "" := by
    intro hold
    unfold Command.update at hold
    split_ifs at hold
    have hempty : c.oldSha = [] := by
      rw [← Text.ofList_eq_empty]
      exact Option.some.inj hold
    exact Command.sha_ne_nil c.isSha_oldSha hempty
  have hself : ∀ u ∈ r.trimmed, ServiceWorker.carried u = u := by
    cases r with
    | packOnly => exact fun u hu => absurd hu List.not_mem_nil
    | commands r =>
      refine List.forall_mem_cons.mpr ⟨?_, List.forall_mem_map.mpr fun o _ => ?_⟩
      · exact ServiceWorker.carried_eq_self.mpr (hcommand r.first)
      · exact ServiceWorker.carried_eq_self.mpr (hcommand o.1)
  rw [List.map_congr_left hself, List.map_id']

end NearGit.PushRequest

namespace NearGit.FrontEnds
open Lib NearGit.Packfile NearGit.Contract NearGit.PushRequest

/-- A receive-pack request that one of the front ends serves, and what comes of its RPC calls. -/
inductive Served
  | gitServer (ownerId : String) (delivery : Delivery) (r : AnyRequest)
  | serviceWorker (C : Crates) (accountId : String) (rpc : ServiceWorker.Rpc) (r : AnyRequest)

namespace Served

def caller : Served → String
  | .gitServer ownerId _ _ => ownerId
  | .serviceWorker _ accountId _ _ => accountId

def updates : Served → List RefUpdate
  | .gitServer _ _ r => r.updates
  | .serviceWorker _ _ _ r => r.trimmed

def handle (contract : GitStorage) : Served → Handled
  | .gitServer ownerId delivery r =>
    GitServer.handleReceivePack contract ownerId delivery r.body
  | .serviceWorker C accountId rpc r =>
    ServiceWorker.handleReceivePackBody C rpc contract accountId r.body

def delivery : Served → Delivery
  | .gitServer _ delivery _ => delivery
  | .serviceWorker _ _ rpc _ => rpc.delivery

def sent : Served → Option (Bytes × Bytes)
  | .gitServer _ _ r => (GitServer.sentPush r.body).map fun args => (args, r.pack)
  | .serviceWorker C _ rpc r =>
    if r.updates.length < 2 ^ 32 ∧ r.pack ≠ [] then do
      let packData ← ServiceWorker.packToPush C rpc r.pack
      let args ← ServiceWorker.pushArgsBytes {
        packData := ServiceWorker.uint8ToBase64 packData
        refUpdates := r.trimmed }
      return (args, packData)
    else none

theorem gitServer_pack (r : AnyRequest) : (PktLine.readUntilFlush r.body).2 = r.pack := by
  cases r with
  | commands r => exact (gitServer_decodes r).2
  | packOnly pack =>
    rw [AnyRequest.body, PktLine.readUntilFlush_flush]
    rfl

theorem handle_of_unsent (s : GitStorage) {served : Served} (h : served.sent = none) :
    (served.handle s).accepted = [] ∧ (served.handle s).contract = s := by
  cases served with
  | gitServer ownerId delivery r =>
    have hunsent : GitServer.sentPush r.body = none := Option.map_eq_none_iff.mp h
    rw [handle, GitServer.handleReceivePack_of_unsent hunsent]
    exact ⟨rfl, rfl⟩
  | serviceWorker C accountId rpc r =>
    rw [handle, ServiceWorker.handleReceivePackBody, r.serviceWorker_reads]
    by_cases hfew : r.updates.length < 2 ^ 32
    · by_cases hpack : r.pack = []
      · simp only [if_pos hfew, hpack, ne_eq, not_true_eq_false, if_false, and_self]
      · have hinput : ServiceWorker.pushInput C rpc r.trimmed r.pack = none := by
          rw [sent, if_pos ⟨hfew, hpack⟩] at h
          rw [ServiceWorker.pushInput]
          rcases hdata : ServiceWorker.packToPush C rpc r.pack with _ | packData
          · rfl
          · simp only [hdata, Option.bind_eq_bind, Option.bind_some, Option.pure_def] at h ⊢
            by_contra hne
            obtain ⟨args, hargs⟩ := Option.ne_none_iff_exists'.mp hne
            rw [hargs] at h
            cases h
        simp only [if_pos hfew, ne_eq, hpack, not_false_eq_true, if_true, hinput, and_self]
    · simp only [if_neg hfew, and_self]

theorem handle_of_sent (s : GitStorage) {served : Served} {args packData : Bytes}
    (h : served.sent = some (args, packData)) :
    decodePushArgs args = some (packData, served.updates) ∧ ∃ respond,
      served.handle s = sendPush s served.caller args served.delivery respond := by
  cases served with
  | gitServer ownerId delivery r =>
    obtain ⟨args', hsent, hpair⟩ := Option.map_eq_some_iff.mp h
    cases hpair
    have hargs := Outcome.toOption_eq_some.mp hsent
    rw [gitServer_pack, r.gitServer_reads] at hargs
    exact ⟨GitServer.decode_encodePushArgs hargs, _, GitServer.handleReceivePack_of_sent hsent ..⟩
  | serviceWorker C accountId rpc r =>
    rw [sent] at h
    split_ifs at h with hboth
    obtain ⟨hfew, hpack⟩ := hboth
    obtain ⟨packData', hdata, h⟩ := Option.bind_eq_some_iff.mp h
    obtain ⟨args', hargs, hpair⟩ := Option.bind_eq_some_iff.mp h
    cases hpair
    have hrequest : ServiceWorker.parseRequest r.body = some (r.trimmed, r.pack) := by
      rw [r.serviceWorker_reads, if_pos hfew]
    have hinput : ServiceWorker.pushInput C rpc r.trimmed r.pack = some args := by
      rw [ServiceWorker.pushInput, hdata, Option.bind_eq_bind, Option.bind_some, hargs]
    have hlength : packData.length < 2 ^ 32 := (ServiceWorker.packToPush_eq_some hdata).1
    obtain ⟨hcount, hshort⟩ := ServiceWorker.parseRequest_sizes hrequest
    have hdecode := ServiceWorker.decode_pushArgsBytes hlength hcount hshort hargs
    rw [r.carried_trimmed] at hdecode
    refine ⟨hdecode, ?_⟩
    simp only [handle, ServiceWorker.handleReceivePackBody, hrequest, ne_eq, hpack,
      not_false_eq_true, if_true, hinput]
    exact ⟨_, rfl⟩

theorem accepted_iff (s : GitStorage) (served : Served) :
    (served.handle s).accepted ≠ [] ↔ ∃ args packData, served.sent = some (args, packData) ∧
      served.delivery.executed = true ∧
        ∃ s', s.push served.caller packData served.updates = .ok s' := by
  rcases hsent : served.sent with _ | ⟨args, packData⟩
  · rw [(handle_of_unsent s hsent).1]
    exact iff_of_false (fun h => h rfl) (by rintro ⟨args, packData, h, -⟩; cases h)
  obtain ⟨hdecode, respond, hhandle⟩ := handle_of_sent s hsent
  have hpushed : s.pushSerialized served.caller args =
      (s.push served.caller packData served.updates).toOption :=
    GitStorage.pushSerialized_of_decode hdecode
  rw [hhandle, sendPush, hpushed]
  by_cases hexecuted : served.delivery.executed = true
  · rcases hpush : s.push served.caller packData served.updates with failure | s'
    · simp only [if_pos hexecuted, Except.toOption, Option.isSome_none, Bool.false_eq_true,
        if_false]
      refine iff_of_false (fun h => h rfl) ?_
      rintro ⟨args', packData', hsame, -, s', hpush'⟩
      cases hsame
      cases hpush.symm.trans hpush'
    · simp only [if_pos hexecuted, Except.toOption, Option.isSome_some, if_true]
      exact iff_of_true (List.cons_ne_nil _ _) ⟨args, packData, rfl, hexecuted, s', hpush⟩
  · simp only [if_neg hexecuted, Option.isSome_none, Bool.false_eq_true, if_false]
    refine iff_of_false (fun h => h rfl) ?_
    rintro ⟨-, -, -, hexecuted', -⟩
    exact hexecuted hexecuted'

theorem handle_cases (s : GitStorage) (served : Served) :
    ((served.handle s).accepted = [] ∧ (served.handle s).contract = s) ∨
      ∃ args packData, served.sent = some (args, packData) ∧
        (served.handle s).accepted = [args] ∧
        decodePushArgs args = some (packData, served.updates) ∧
        s.push served.caller packData served.updates = .ok (served.handle s).contract := by
  rcases hsent : served.sent with _ | ⟨args, packData⟩
  · exact .inl (handle_of_unsent s hsent)
  · obtain ⟨hdecode, respond, hhandle⟩ := handle_of_sent s hsent
    rw [hhandle]
    rcases sendPush_cases s served.caller args served.delivery respond with
      hnone | ⟨haccepted, hpush⟩
    · exact .inl hnone
    · rw [GitStorage.pushSerialized_of_decode hdecode] at hpush
      exact .inr ⟨args, packData, rfl, haccepted, hdecode, except_toOption_eq_some.mp hpush⟩

end Served

/-! ## What gets into the refs -/

/-- A ref as a command can write it; a line with the command holds the name and 82 bytes more. -/
structure CleanRef (name sha : String) : Prop where
  chars : ∀ c ∈ name.toList, refNameChar c = true
  length : (Utf8.encode name).length ≤ 65449
  sha : isSha sha.toList = true

theorem length_sha {sha : List Char} (h : isSha sha = true) : sha.length = 40 := by
  rw [isSha, Bool.and_eq_true, beq_iff_eq] at h
  exact h.1

theorem length_name_le {c : Command} {tail l : List Char}
    (hline : (Commands.payload (c.text ++ tail)).length ≤ 65531) (hl : l <+: c.name) :
    (Utf8.encode (String.ofList l)).length ≤ 65449 := by
  obtain ⟨k, hk⟩ := hl
  obtain ⟨front, hfront, htext⟩ : ∃ front : List Char, front.length = 82 ∧
      c.text ++ tail = front ++ (l ++ (k ++ tail)) := by
    refine ⟨c.oldSha ++ ' ' :: (c.newSha ++ [' ']), ?_, ?_⟩
    · simp [length_sha c.isSha_oldSha, length_sha c.isSha_newSha]
    · rw [c.text_append, ← hk]
      simp
  have hle := Utf8.length_le_encode front
  rw [Commands.payload, htext, Utf8.encode_append, Utf8.encode_append, List.length_append,
    List.length_append] at hline
  omega

theorem Served.isSha_newSha (served : Served) :
    ∀ u ∈ served.updates, isSha u.newSha.toList = true := by
  have hcommand (c : Command) (sha : String) (hsha : sha = String.ofList c.newSha) :
      isSha sha.toList = true := by
    rw [hsha, String.toList_ofList]
    exact c.isSha_newSha
  have hrequest (r : AnyRequest) : (∀ u ∈ r.updates, isSha u.newSha.toList = true) ∧
      ∀ u ∈ r.trimmed, isSha u.newSha.toList = true := by
    cases r with
    | packOnly => exact ⟨fun u hu => absurd hu List.not_mem_nil, fun u hu => absurd hu List.not_mem_nil⟩
    | commands r =>
      have hfirst : isSha r.first.update.newSha.toList = true := hcommand r.first _ rfl
      exact ⟨List.forall_mem_cons.mpr ⟨hfirst, List.forall_mem_map.mpr fun o _ => hcommand o.1 _ rfl⟩,
        List.forall_mem_cons.mpr ⟨hfirst, List.forall_mem_map.mpr fun o _ => hcommand o.1 _ rfl⟩⟩
  cases served with
  | gitServer ownerId delivery r => exact (hrequest r).1
  | serviceWorker C accountId rpc r => exact (hrequest r).2

theorem Served.cleanRef (served : Served) : ∀ u ∈ served.updates, CleanRef u.name u.newSha := by
  have hname (r : AnyRequest) :
      (∀ name ∈ r.names, (∀ c ∈ name.toList, refNameChar c = true) ∧
        (Utf8.encode name).length ≤ 65449) ∧
      ∀ name ∈ r.trimmed.map RefUpdate.name, (∀ c ∈ name.toList, refNameChar c = true) ∧
        (Utf8.encode name).length ≤ 65449 := by
    refine AnyRequest.forall_names fun c tail l hline hl => ⟨fun ch hch => ?_, ?_⟩
    · rw [String.toList_ofList] at hch
      exact c.refNameChar_of_mem (hl.subset hch)
    · exact length_name_le hline hl
  intro u hu
  have hsha := served.isSha_newSha u hu
  cases served with
  | gitServer ownerId delivery r =>
    obtain ⟨hchars, hlength⟩ := (hname r).1 u.name (List.mem_map_of_mem hu)
    exact ⟨hchars, hlength, hsha⟩
  | serviceWorker C accountId rpc r =>
    obtain ⟨hchars, hlength⟩ := (hname r).2 u.name (List.mem_map_of_mem hu)
    exact ⟨hchars, hlength, hsha⟩

def stateAfter (owner : String) (served : List Served) : GitStorage :=
  served.foldl (fun s x => (x.handle s).contract) (.new owner)

theorem stateAfter_concat (owner : String) (before : List Served) (served : Served) :
    stateAfter owner (before ++ [served]) = (served.handle (stateAfter owner before)).contract := by
  rw [stateAfter, List.foldl_append]
  rfl

theorem Served.represents {s : GitStorage} {repo : Repo} (hs : s.Represents repo)
    (served : Served) : ∃ repo', (served.handle s).contract.Represents repo' ∧
      (served.handle s).contract.owner = s.owner ∧
      ∀ name sha, repo'.refs name = some sha → repo.refs name = some sha ∨
        ∃ u ∈ served.updates, u.name = name ∧ u.newSha = sha := by
  rcases served.handle_cases s with ⟨-, hsame⟩ | ⟨args, packData, -, -, -, hpush⟩
  · exact ⟨repo, by rw [hsame]; exact hs, by rw [hsame], fun name sha h => .inl h⟩
  · obtain ⟨repo', hrepo', howner, -, hrefs⟩ := push_represents hs hpush
    exact ⟨repo', hrepo', howner, hrefs⟩

/-- Whatever is served, every ref is one that a command can write. -/
theorem stateAfter_clean (owner : String) (served : List Served) :
    ∃ repo, (stateAfter owner served).Represents repo ∧ (stateAfter owner served).owner = owner ∧
      ∀ name sha, repo.refs name = some sha → CleanRef name sha := by
  induction served using List.reverseRecOn with
  | nil => exact ⟨.empty, represents_new owner, rfl, fun name sha h => by cases h⟩
  | append_singleton served x ih =>
    obtain ⟨repo, hrepo, howner, hclean⟩ := ih
    obtain ⟨repo', hrepo', hsame, hrefs⟩ := x.represents hrepo
    rw [stateAfter_concat]
    refine ⟨repo', hrepo', hsame.trans howner, fun name sha h => ?_⟩
    rcases hrefs name sha h with hold | ⟨u, hu, rfl, rfl⟩
    · exact hclean name sha hold
    · exact x.cleanRef u hu

end NearGit.FrontEnds
