import NearGit.Contract.History
import NearGit.GitServer.ReceivePack

/-! What becomes of refs that are deleted through git-server. The zero SHA is none on the old side
of a command and a value like any other on the new side, so a deleted ref is there for good. -/

namespace NearGit.GitServer
open Lib NearGit.Contract

structure Request where
  body : Bytes
  delivery : Delivery

def serve (owner : String) (contract : GitStorage) (request : Request) : Handled :=
  handleReceivePack contract owner request.delivery request.body

def serveAll (owner : String) (contract : GitStorage) (requests : List Request) : GitStorage :=
  requests.foldl (fun contract request => (serve owner contract request).contract) contract

theorem serveAll_append (owner : String) (contract : GitStorage) (l r : List Request) :
    serveAll owner contract (l ++ r) = serveAll owner (serveAll owner contract l) r :=
  List.foldl_append ..

/-! ## One request -/

theorem parseCommand_oldSha {cmd : Bytes} {u : RefUpdate} (h : parseCommand cmd = some u) :
    u.oldSha ≠ some zeroSha := by
  simp only [parseCommand, Option.bind_eq_bind, Option.bind_eq_some_iff, Option.pure_def,
    Option.some.injEq] at h
  obtain ⟨_, -, _, -, rfl⟩ := h
  dsimp only
  split_ifs with hzero
  · exact (Option.some_ne_none zeroSha).symm
  · exact fun heq => hzero (Option.some.inj heq)

theorem commandedUpdates_oldSha {body : Bytes} {u : RefUpdate} (h : u ∈ commandedUpdates body) :
    u.oldSha ≠ some zeroSha := by
  obtain ⟨cmd, -, hcmd⟩ := List.mem_filterMap.mp h
  exact parseCommand_oldSha hcmd

section Serve
variable {owner : String} {s : GitStorage} {repo : Repo} {request : Request}

def casUpdates (body : Bytes) : List (CasMap.Update String String) :=
  (commandedUpdates body).map RefUpdate.toUpdate

theorem casUpdates_expected {body : Bytes} {u : CasMap.Update String String}
    (h : u ∈ casUpdates body) : u.expected ≠ some zeroSha := by
  obtain ⟨u, hu, rfl⟩ := List.mem_map.mp h
  exact commandedUpdates_oldSha hu

theorem serve_cases (hs : s.Represents repo) (owner : String) (request : Request) :
    let h := serve owner s request
    (h.accepted = [] ∧ h.contract = s) ∨
      h.accepted ≠ [] ∧ ∃ repo', h.contract.Represents repo' ∧
        CasMap.applyAll repo.refs ((casUpdates request.body).map .update) = some repo'.refs := by
  rcases handleReceivePack_cases s owner request.delivery request.body with hnone | haccepted
  · exact .inl hnone
  · obtain ⟨args, packData, hargs, -, hpush⟩ := haccepted
    have hexec : s.exec { predecessor := owner
                          call := .push packData (commandedUpdates request.body) } = .ok _ := hpush
    obtain ⟨⟨repo', hrepo', hrep⟩, -, -⟩ := exec_represents hs hexec
    obtain ⟨refs, hrefs, rfl⟩ := Repo.exec_push.mp hrepo'
    refine .inr ⟨by rw [serve, hargs]; exact List.cons_ne_nil _ _, _, hrep, ?_⟩
    rw [casUpdates, List.map_map]
    exact hrefs

theorem serve_represents (hs : s.Represents repo) (owner : String) (request : Request) :
    ∃ repo', (serve owner s request).contract.Represents repo' := by
  rcases serve_cases hs owner request with ⟨-, hsame⟩ | ⟨-, repo', hrep, -⟩
  · exact ⟨repo, by rw [hsame]; exact hs⟩
  · exact ⟨repo', hrep⟩

theorem serve_zero (hs : s.Represents repo) {name : String}
    (h : (name, zeroSha) ∈ s.getRefs ∨ (serve owner s request).accepted ≠ [] ∧
      ∃ u ∈ commandedUpdates request.body, u.name = name ∧ u.newSha = zeroSha) :
    (name, zeroSha) ∈ (serve owner s request).contract.getRefs := by
  rcases serve_cases hs owner request with ⟨hnone, hsame⟩ | ⟨-, repo', hrep, happly⟩
  · rw [hsame]
    exact h.resolve_right fun haccepted => haccepted.1 hnone
  · rw [hrep.mem_getRefs]
    refine CasMap.applyAll_unexpected happly (fun u hu => casUpdates_expected hu) ?_
    rcases h with hzero | ⟨-, u, hu, hname, hnew⟩
    · exact .inl ((hs.mem_getRefs name zeroSha).mp hzero)
    · exact .inr ⟨u.toUpdate, List.mem_map_of_mem hu, hname, hnew⟩

theorem serve_refuses (hs : s.Represents repo) {u : RefUpdate}
    (hu : u ∈ commandedUpdates request.body) (hzero : (u.name, zeroSha) ∈ s.getRefs) :
    (serve owner s request).accepted = [] := by
  rcases serve_cases hs owner request with ⟨hnone, -⟩ | ⟨-, repo', hrep, happly⟩
  · exact hnone
  · have hkey := CasMap.applyAll_key_ne happly (fun u hu => casUpdates_expected hu)
      ((hs.mem_getRefs _ _).mp hzero) u.toUpdate (List.mem_map_of_mem hu)
    exact absurd rfl hkey

theorem serve_zero_inv (hs : s.Represents repo) {name : String}
    (h : (name, zeroSha) ∈ (serve owner s request).contract.getRefs) :
    (name, zeroSha) ∈ s.getRefs ∨ (serve owner s request).accepted ≠ [] ∧
      ∃ u ∈ commandedUpdates request.body, u.name = name ∧ u.newSha = zeroSha := by
  rcases serve_cases hs owner request with ⟨-, hsame⟩ | ⟨haccepted, repo', hrep, happly⟩
  · exact .inl (hsame ▸ h)
  · rcases CasMap.applyAll_eq_some happly ((hrep.mem_getRefs _ _).mp h) with hold | hnew
    · exact .inl ((hs.mem_getRefs _ _).mpr hold)
    · obtain ⟨u, hu, hkey, hvalue⟩ := hnew
      obtain ⟨u, hu, heq⟩ := List.mem_map.mp hu
      cases heq
      obtain ⟨v, hv, rfl⟩ := List.mem_map.mp hu
      exact .inr ⟨haccepted, v, hv, hkey, hvalue⟩

end Serve

/-! ## All requests -/

section ServeAll
variable {owner : String} {s : GitStorage} {repo : Repo}

theorem serveAll_represents (hs : s.Represents repo) (owner : String) (requests : List Request) :
    ∃ repo', (serveAll owner s requests).Represents repo' := by
  induction requests generalizing s repo with
  | nil => exact ⟨repo, hs⟩
  | cons request requests ih =>
    obtain ⟨repo', hrep⟩ := serve_represents hs owner request
    exact ih hrep

theorem serveAll_zero (hs : s.Represents repo) (owner : String) {name : String}
    (h : (name, zeroSha) ∈ s.getRefs) (requests : List Request) :
    (name, zeroSha) ∈ (serveAll owner s requests).getRefs := by
  induction requests generalizing s repo with
  | nil => exact h
  | cons request requests ih =>
    obtain ⟨repo', hrep⟩ := serve_represents hs owner request
    exact ih hrep (serve_zero hs (.inl h))

end ServeAll

theorem serveAll_concat (owner : String) (s : GitStorage) (served : List Request)
    (request : Request) : serveAll owner s (served ++ [request]) =
      (serve owner (serveAll owner s served) request).contract := serveAll_append ..

theorem new_notMem_getRefs (owner name sha : String) :
    (name, sha) ∉ (GitStorage.new owner).getRefs :=
  fun h => nomatch ((represents_new owner).mem_getRefs name sha).mp h

theorem no_zero_iff (owner : String) (requests : List Request) :
    (∀ served, served <+: requests →
      ∀ name, (name, zeroSha) ∉ (serveAll owner (.new owner) served).getRefs) ↔
    ∀ served request, served ++ [request] <+: requests →
      (serve owner (serveAll owner (.new owner) served) request).accepted ≠ [] →
        ∀ u ∈ commandedUpdates request.body, u.newSha ≠ zeroSha := by
  constructor
  · intro hnone served request hprefix haccepted u hu hzero
    obtain ⟨repo, hrep⟩ := serveAll_represents (represents_new owner) owner served
    have hstays := serve_zero hrep (.inr ⟨haccepted, u, hu, rfl, hzero⟩)
    rw [← serveAll_concat] at hstays
    exact hnone _ hprefix u.name hstays
  · intro hnever served
    induction served using List.reverseRecOn with
    | nil => exact fun _ name => new_notMem_getRefs owner name zeroSha
    | append_singleton served request ih =>
      intro hprefix name hzero
      rw [serveAll_concat] at hzero
      obtain ⟨repo, hrep⟩ := serveAll_represents (represents_new owner) owner served
      rcases serve_zero_inv hrep hzero with hbefore | ⟨haccepted, u, hu, -, hnew⟩
      · exact ih ((List.prefix_append served [request]).trans hprefix) name hbefore
      · exact hnever served request hprefix haccepted u hu hnew

/-- A deletion that is answered with `ok` leaves the ref at the zero SHA, in every state that
further requests lead to, and no command on it is accepted there. In a run from the start no ref
is ever at the zero SHA exactly if no accepted request commands one. -/
theorem deletion_leaves_zero (owner : String) :
    (∀ (txs : List Tx) (request : Request), ∀ u ∈ commandedUpdates request.body,
      u.newSha = zeroSha → ∀ report,
      (serve owner (stateAfter owner txs) request).report = some report →
      s!"ok {u.name}" ∈ report → ∀ later : List Request,
        let s := serveAll owner (serve owner (stateAfter owner txs) request).contract later
        (u.name, zeroSha) ∈ s.getRefs ∧
          ∀ again : Request, (∃ v ∈ commandedUpdates again.body, v.name = u.name) →
            (serve owner s again).accepted = []) ∧
    ∀ requests : List Request,
      (∀ served, served <+: requests →
        ∀ name, (name, zeroSha) ∉ (serveAll owner (.new owner) served).getRefs) ↔
      ∀ served request, served ++ [request] <+: requests →
        (serve owner (serveAll owner (.new owner) served) request).accepted ≠ [] →
          ∀ u ∈ commandedUpdates request.body, u.newSha ≠ zeroSha := by
  refine ⟨?_, no_zero_iff owner⟩
  intro txs request u hu hdelete report hreport hok later
  obtain ⟨repo, htracks⟩ := exists_tracks owner txs
  have haccepted : (serve owner (stateAfter owner txs) request).accepted ≠ [] :=
    accepted_of_ok _ _ _ _ hreport hok
  have hzero := serve_zero htracks.represents (.inr ⟨haccepted, u, hu, rfl, hdelete⟩)
  obtain ⟨repo', hrep'⟩ := serve_represents htracks.represents owner request
  have hstays := serveAll_zero hrep' owner hzero later
  refine ⟨hstays, ?_⟩
  rintro again ⟨v, hv, hname⟩
  obtain ⟨repo'', hrep''⟩ := serveAll_represents hrep' owner later
  exact serve_refuses hrep'' hv (hname ▸ hstays)

/-! ## A ref that is deleted -/

def mainSha : String := "3b18e512dba79e4c8300dd08aeb37f8e728b8dad"

def commandBody (oldSha newSha : String) : Bytes :=
  PktLine.encode (Utf8.encode
    s!"{oldSha} {newSha} refs/heads/main{Char.ofNat 0} report-status delete-refs") ++ PktLine.flush

def createMain : Request := { body := commandBody zeroSha mainSha, delivery := .answered "" }

def deleteMain : Request := { body := commandBody mainSha zeroSha, delivery := .answered "" }

def mainUpdate (oldSha : Option String) (newSha : String) : RefUpdate where
  name := "refs/heads/main"
  oldSha := oldSha
  newSha := newSha

theorem commandLine_eq (oldSha newSha : String) :
    s!"{oldSha} {newSha} refs/heads/main{Char.ofNat 0} report-status delete-refs" =
      String.ofList (oldSha.toList ++ ' ' :: (newSha.toList ++ ' ' ::
        ("refs/heads/main".toList ++ Char.ofNat 0 :: " report-status delete-refs".toList))) := by
  refine String.toList_inj.mp ?_
  simp [toString]

theorem parseCommand_main {oldSha newSha : String}
    (hold : ' ' ∉ oldSha.toList ∧ Char.ofNat 0 ∉ oldSha.toList) (hnew : ' ' ∉ newSha.toList) :
    parseCommand (Utf8.encode
        s!"{oldSha} {newSha} refs/heads/main{Char.ofNat 0} report-status delete-refs") =
      some (mainUpdate (if oldSha = zeroSha then none else some oldSha) newSha) := by
  rw [commandLine_eq, parseCommand_encode hold hnew (by decide)]
  simp only [String.ofList_toList]
  rfl

theorem readUntilFlush_commandBody {oldSha newSha : String} (hold : oldSha.toList.length = 40)
    (hnew : newSha.toList.length = 40) : PktLine.readUntilFlush (commandBody oldSha newSha) =
      ([Utf8.encode
        s!"{oldSha} {newSha} refs/heads/main{Char.ofNat 0} report-status delete-refs"], []) := by
  have hlength : (Utf8.encode
      s!"{oldSha} {newSha} refs/heads/main{Char.ofNat 0} report-status delete-refs").length ≤
        65531 := by
    refine (Utf8.length_encode_le _).trans ?_
    rw [commandLine_eq, String.toList_ofList]
    simp [hold, hnew]
  have hflush : PktLine.readUntilFlush PktLine.flush = ([], []) := by
    rw [← List.append_nil PktLine.flush, PktLine.readUntilFlush_flush]
  rw [commandBody, PktLine.readUntilFlush_encode hlength, hflush]

theorem zeroSha_toList : zeroSha.toList = List.replicate 40 '0' := String.toList_ofList

theorem mainSha_ne_zeroSha : mainSha ≠ zeroSha := by decide +kernel

theorem readUntilFlush_createMain : PktLine.readUntilFlush createMain.body =
    ([Utf8.encode s!"{zeroSha} {mainSha} refs/heads/main{Char.ofNat 0} report-status delete-refs"],
      []) :=
  readUntilFlush_commandBody (by rw [zeroSha_toList, List.length_replicate]) (by decide)

theorem readUntilFlush_deleteMain : PktLine.readUntilFlush deleteMain.body =
    ([Utf8.encode s!"{mainSha} {zeroSha} refs/heads/main{Char.ofNat 0} report-status delete-refs"],
      []) :=
  readUntilFlush_commandBody (by decide) (by rw [zeroSha_toList, List.length_replicate])

theorem commandedUpdates_createMain :
    commandedUpdates createMain.body = [mainUpdate none mainSha] := by
  have hzero : ' ' ∉ zeroSha.toList ∧ Char.ofNat 0 ∉ zeroSha.toList := by
    rw [zeroSha_toList]
    decide
  rw [commandedUpdates, readUntilFlush_createMain,
    List.filterMap_cons_some (parseCommand_main hzero (by decide)),
    if_pos rfl, List.filterMap_nil]

theorem commandedUpdates_deleteMain :
    commandedUpdates deleteMain.body = [mainUpdate (some mainSha) zeroSha] := by
  have hzero : ' ' ∉ zeroSha.toList := by
    rw [zeroSha_toList]
    decide
  rw [commandedUpdates, readUntilFlush_deleteMain,
    List.filterMap_cons_some (parseCommand_main (by decide) hzero),
    if_neg mainSha_ne_zeroSha, List.filterMap_nil]

def withMain (sha : String) : GitStorage :=
  { GitStorage.new "owner" with
    refs := (∅ : IterableMap String String).insert "refs/heads/main" sha }

theorem push_createMain : (GitStorage.new "owner").push "owner" [] [mainUpdate none mainSha] =
    .ok (withMain mainSha) :=
  GitStorage.push_eq_ok.mpr ⟨rfl, _, GitStorage.storePack_eq_ok.mpr (.inl ⟨rfl, rfl⟩), rfl⟩

theorem push_deleteMain : (withMain mainSha).push "owner" [] [mainUpdate (some mainSha) zeroSha] =
    .ok (withMain zeroSha) :=
  GitStorage.push_eq_ok.mpr ⟨rfl, _, GitStorage.storePack_eq_ok.mpr (.inl ⟨rfl, rfl⟩), rfl⟩

theorem serve_createMain : ∃ args, serve "owner" (.new "owner") createMain = {
    contract := withMain mainSha
    accepted := [args]
    report := some ["unpack ok", "ok refs/heads/main"] } := by
  obtain ⟨args, hargs⟩ : ∃ args, encodePushArgs [] [mainUpdate none mainSha] = .ok args := ⟨_, rfl⟩
  have hpack := congrArg Prod.snd readUntilFlush_createMain
  exact ⟨args, handleReceivePack_answered hpack commandedUpdates_createMain hargs push_createMain⟩

theorem serve_deleteMain : ∃ args, serve "owner" (withMain mainSha) deleteMain = {
    contract := withMain zeroSha
    accepted := [args]
    report := some ["unpack ok", "ok refs/heads/main"] } := by
  obtain ⟨args, hargs⟩ : ∃ args, encodePushArgs [] [mainUpdate (some mainSha) zeroSha] =
    .ok args := ⟨_, rfl⟩
  have hpack := congrArg Prod.snd readUntilFlush_deleteMain
  exact ⟨args, handleReceivePack_answered hpack commandedUpdates_deleteMain hargs push_deleteMain⟩

/-- The ref is created, deleted and created once more, in requests without pack bytes. -/
theorem deleted_ref_stays :
    (serve "owner" (serveAll "owner" (.new "owner") [createMain]) deleteMain).report =
        some ["unpack ok", "ok refs/heads/main"] ∧
      (serveAll "owner" (.new "owner") [createMain, deleteMain]).getRefs =
        [("refs/heads/main", zeroSha)] ∧
      (serve "owner" (serveAll "owner" (.new "owner") [createMain, deleteMain]) createMain).accepted =
        [] := by
  obtain ⟨created, hcreated⟩ := serve_createMain
  obtain ⟨deleted, hdeleted⟩ := serve_deleteMain
  have hone : serveAll "owner" (.new "owner") [createMain] = withMain mainSha := by
    rw [serveAll, List.foldl_cons, hcreated, List.foldl_nil]
  have htwo : serveAll "owner" (.new "owner") [createMain, deleteMain] = withMain zeroSha := by
    rw [serveAll, List.foldl_cons, hcreated, List.foldl_cons, hdeleted, List.foldl_nil]
  obtain ⟨repo, hrep⟩ := serveAll_represents (represents_new "owner") "owner"
    [createMain, deleteMain]
  have hcommands : mainUpdate none mainSha ∈ commandedUpdates createMain.body := by
    rw [commandedUpdates_createMain]
    exact List.mem_singleton_self _
  have hzero : ("refs/heads/main", zeroSha) ∈ (withMain zeroSha).getRefs :=
    List.mem_singleton_self _
  refine ⟨by rw [hone, hdeleted], by rw [htwo]; rfl, ?_⟩
  exact serve_refuses hrep hcommands (htwo ▸ hzero)

end NearGit.GitServer
