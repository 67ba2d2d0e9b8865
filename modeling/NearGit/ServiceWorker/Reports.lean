import NearGit.ServiceWorker.PushLoss
import NearGit.ServiceWorker.Request

/-! Whether `ok` is only reported for what the contract has applied, by git-server and by the
service worker. -/

namespace NearGit.ServiceWorker
open Lib NearGit.Packfile NearGit.Contract

/-! ## Status lines -/

theorem ok_mem_okLines {updates : List RefUpdate} {u : RefUpdate} (hu : u ∈ updates) :
    s!"ok {u.name}" ∈ okLines updates :=
  List.mem_cons_of_mem _ (List.mem_map_of_mem hu)

theorem ok_notMem_ngLines (updates : List RefUpdate) (error name : String) :
    s!"ok {name}" ∉ ngLines updates error := by
  intro hmem
  rcases List.mem_cons.mp hmem with heq | hmem
  · exact ok_ne_of_head (by simp [toString]) heq
  · obtain ⟨u, -, heq⟩ := List.mem_map.mp hmem
    exact ok_ne_of_head (by simp [toString]) heq.symm

theorem okReport_eq (rpc : Rpc) (updates : List RefUpdate) :
    okReport rpc updates = okLines updates := by
  rw [okReport]
  split_ifs
  · split <;> rfl
  · rfl

/-! ## The service worker -/

def PushAnsweredOk (C : Crates) (rpc : Rpc) (contract : GitStorage) (accountId : String)
    (body : Bytes) : Prop :=
  ∃ updates rest input, parseRequest body = some (updates, rest) ∧ rest ≠ [] ∧
    pushInput C rpc updates rest = some input ∧ AnsweredOk contract accountId input rpc.delivery

/-- Nothing is commanded; or there are pack bytes, and either every old SHA can be said in the
arguments or the push is not answered with success. -/
def ReportsApplied (C : Crates) (rpc : Rpc) (contract : GitStorage) (accountId : String)
    (body : Bytes) : Prop :=
  commandedUpdates body = [] ∨
    (∃ updates rest, parseRequest body = some (updates, rest) ∧ rest ≠ []) ∧
      ((∀ u ∈ commandedUpdates body, u.oldSha ≠ some "") ∨
        ¬ PushAnsweredOk C rpc contract accountId body)

theorem truthful_iff_carried {h : Handled} {input pack : Bytes} {updates : List RefUpdate}
    {rpc : Rpc} (haccepted : h.accepted = [input])
    (hreport : h.report = some (okReport rpc updates))
    (hdecode : decodePushArgs input = some (pack, updates.map carried)) :
    h.Truthful updates ↔ ∀ u ∈ updates, u.oldSha ≠ some "" := by
  constructor
  · intro htruthful u hu
    have hok : s!"ok {u.name}" ∈ okReport rpc updates := okReport_eq rpc updates ▸ ok_mem_okLines hu
    obtain ⟨input', hinput', pack', updates', hdecode', hu'⟩ := htruthful _ hreport u hu hok
    rw [haccepted] at hinput'
    obtain rfl := List.mem_singleton.mp hinput'
    rw [hdecode, Option.some.injEq, Prod.mk.injEq] at hdecode'
    obtain ⟨-, rfl⟩ := hdecode'
    obtain ⟨v, -, rfl⟩ := List.mem_map.mp hu'
    exact carried_oldSha_ne v
  · intro hcarried report _ u hu _
    refine ⟨input, haccepted ▸ List.mem_singleton_self input, pack, _, hdecode, ?_⟩
    exact List.mem_map.mpr ⟨u, hu, carried_eq_self.mpr (hcarried u hu)⟩

section Request
variable {C : Crates} {rpc : Rpc} {contract : GitStorage} {accountId : String} {body rest : Bytes}
  {updates : List RefUpdate}

theorem pushAnsweredOk_iff (hrequest : parseRequest body = some (updates, rest)) :
    PushAnsweredOk C rpc contract accountId body ↔ rest ≠ [] ∧
      ∃ input, pushInput C rpc updates rest = some input ∧
        AnsweredOk contract accountId input rpc.delivery := by
  constructor
  · rintro ⟨updates', rest', input, hrequest', hrest, hinput, hok⟩
    cases hrequest.symm.trans hrequest'
    exact ⟨hrest, input, hinput, hok⟩
  · rintro ⟨hrest, input, hinput, hok⟩
    exact ⟨updates, rest, input, hrequest, hrest, hinput, hok⟩

theorem pushAnsweredOk_iff_of_input {input : Bytes}
    (hrequest : parseRequest body = some (updates, rest)) (hrest : rest ≠ [])
    (hinput : pushInput C rpc updates rest = some input) :
    PushAnsweredOk C rpc contract accountId body ↔
      AnsweredOk contract accountId input rpc.delivery := by
  rw [pushAnsweredOk_iff hrequest, and_iff_right hrest, hinput]
  simp only [Option.some.injEq, exists_eq_left']

/-! ## What the handler reports -/

theorem handled_without_pack (hrequest : parseRequest body = some (updates, [])) :
    (handleReceivePackBody C rpc contract accountId body).accepted = [] ∧
      (handleReceivePackBody C rpc contract accountId body).report =
        some (okReport rpc updates) := by
  rw [handleReceivePackBody, hrequest]
  exact ⟨rfl, rfl⟩

theorem report_without_input (hrequest : parseRequest body = some (updates, rest))
    (hrest : rest ≠ []) (hinput : pushInput C rpc updates rest = none) :
    (handleReceivePackBody C rpc contract accountId body).report = none := by
  rw [handleReceivePackBody, hrequest]
  simp only [if_pos hrest, hinput]

theorem handled_pushed {input : Bytes} (hrequest : parseRequest body = some (updates, rest))
    (hrest : rest ≠ []) (hinput : pushInput C rpc updates rest = some input)
    (hok : AnsweredOk contract accountId input rpc.delivery) :
    (handleReceivePackBody C rpc contract accountId body).accepted = [input] ∧
      (handleReceivePackBody C rpc contract accountId body).report =
        some (okReport rpc updates) := by
  rw [handleReceivePackBody, hrequest]
  simp only [if_pos hrest, hinput]
  exact sendPush_of_answeredOk hok

theorem report_failed {input : Bytes} (hrequest : parseRequest body = some (updates, rest))
    (hrest : rest ≠ []) (hinput : pushInput C rpc updates rest = some input)
    (hnot : ¬ AnsweredOk contract accountId input rpc.delivery) :
    (handleReceivePackBody C rpc contract accountId body).report =
      rpc.delivery.failureText.map (ngLines updates) := by
  rw [handleReceivePackBody, hrequest]
  simp only [if_pos hrest, hinput]
  rw [sendPush_report_of_not_answeredOk hnot]
  cases rpc.delivery <;> rfl

/-! ## Truthful reports -/

theorem truthful_without_pack (hrequest : parseRequest body = some (updates, [])) :
    (handleReceivePackBody C rpc contract accountId body).Truthful updates ↔ updates = [] := by
  obtain ⟨haccepted, hreport⟩ :
      (handleReceivePackBody C rpc contract accountId body).accepted = [] ∧
        (handleReceivePackBody C rpc contract accountId body).report =
          some (okReport rpc updates) := handled_without_pack hrequest
  constructor
  · intro htruthful
    rcases updates with _ | ⟨u, updates⟩
    · rfl
    · have hok : s!"ok {u.name}" ∈ okReport rpc (u :: updates) :=
        okReport_eq rpc _ ▸ ok_mem_okLines List.mem_cons_self
      obtain ⟨input, hinput, -⟩ := htruthful _ hreport u List.mem_cons_self hok
      rw [haccepted] at hinput
      exact absurd hinput List.not_mem_nil
  · rintro rfl report _ u hu
    exact absurd hu List.not_mem_nil

theorem truthful_of_not_answered (hrequest : parseRequest body = some (updates, rest))
    (hrest : rest ≠ []) (h : ¬ PushAnsweredOk C rpc contract accountId body) :
    (handleReceivePackBody C rpc contract accountId body).Truthful updates := by
  refine truthful_of_no_ok fun report hreport name => ?_
  rcases hinput : pushInput C rpc updates rest with _ | input
  · rw [report_without_input hrequest hrest hinput] at hreport
    cases hreport
  · have hnot : ¬ AnsweredOk contract accountId input rpc.delivery := fun hok =>
      h ((pushAnsweredOk_iff_of_input hrequest hrest hinput).mpr hok)
    rw [report_failed hrequest hrest hinput hnot, Option.map_eq_some_iff] at hreport
    obtain ⟨error, -, rfl⟩ := hreport
    exact ok_notMem_ngLines updates error name

theorem truthful_of_answered (hrequest : parseRequest body = some (updates, rest))
    (h : PushAnsweredOk C rpc contract accountId body) :
    (handleReceivePackBody C rpc contract accountId body).Truthful updates ↔
      ∀ u ∈ updates, u.oldSha ≠ some "" := by
  obtain ⟨hrest, input, hinput, hok⟩ := (pushAnsweredOk_iff hrequest).mp h
  obtain ⟨pack, hdecode⟩ := decode_pushInput hrequest hinput
  obtain ⟨haccepted, hreport⟩ := handled_pushed hrequest hrest hinput hok
  exact truthful_iff_carried haccepted hreport hdecode

end Request

theorem serviceWorker_truthful_iff (C : Crates) (rpc : Rpc) (contract : GitStorage)
    (accountId : String) (body : Bytes) :
    (handleReceivePackBody C rpc contract accountId body).Truthful (commandedUpdates body) ↔
      ReportsApplied C rpc contract accountId body := by
  rw [ReportsApplied]
  rcases hrequest : parseRequest body with _ | ⟨updates, rest⟩
  · have hnothing : commandedUpdates body = [] := by rw [commandedUpdates, hrequest]; rfl
    rw [hnothing]
    exact ⟨fun _ => .inl rfl, fun _ _ _ _ hu => absurd hu List.not_mem_nil⟩
  · rw [commandedUpdates_eq hrequest]
    by_cases hrest : rest = []
    · subst hrest
      rw [truthful_without_pack hrequest]
      refine ⟨.inl, ?_⟩
      rintro (hnil | ⟨⟨_, _, heq, hne⟩, -⟩)
      · exact hnil
      · cases heq
        exact absurd rfl hne
    have hpack : ∃ updates' rest', some (updates, rest) = some (updates', rest') ∧ rest' ≠ [] :=
      ⟨updates, rest, rfl, hrest⟩
    by_cases hok : PushAnsweredOk C rpc contract accountId body
    · rw [truthful_of_answered hrequest hok]
      constructor
      · exact fun hcarried => .inr ⟨hpack, .inl hcarried⟩
      · rintro (rfl | ⟨-, hcarried | hnot⟩)
        · exact fun u hu => absurd hu List.not_mem_nil
        · exact hcarried
        · exact absurd hok hnot
    · exact ⟨fun _ => .inr ⟨hpack, .inr hok⟩,
        fun _ => truthful_of_not_answered hrequest hrest hok⟩

/-- git-server reports `ok` for nothing but what the contract has accepted; the service worker
does so unless it commands updates without pack bytes, or an empty old SHA that is accepted as
none. -/
theorem ok_only_if_applied_iff (C : Crates) (rpc : Rpc) (delivery : Delivery)
    (contract : GitStorage) (accountId : String) (body : Bytes) :
    (GitServer.handleReceivePack contract accountId delivery body).Truthful
      (GitServer.commandedUpdates body) ∧
    ((handleReceivePackBody C rpc contract accountId body).Truthful (commandedUpdates body) ↔
      ReportsApplied C rpc contract accountId body) :=
  ⟨GitServer.handleReceivePack_truthful contract accountId delivery body,
    serviceWorker_truthful_iff C rpc contract accountId body⟩

/-! ## A deletion, which carries no pack -/

def deleteMain : RefUpdate where
  name := "refs/heads/main"
  oldSha := some "3b18e512dba79e4c8300dd08aeb37f8e728b8dad"
  newSha := zeroSha

def deleteBody : Bytes :=
  PktLine.encode (Utf8.encode
    s!"3b18e512dba79e4c8300dd08aeb37f8e728b8dad {zeroSha} refs/heads/main{nul} report-status\n") ++
    PktLine.flush

def mainContract : GitStorage :=
  stateAfter "alice" [{ predecessor := "alice", call := .push storedPack [createMain] }]

def quietRpc : Rpc where
  packCount := some 1
  existingPacks := some [storedPack]
  delivery := .answered ""
  polls := []

def oldMain : String := "3b18e512dba79e4c8300dd08aeb37f8e728b8dad"

def commandLine (oldSha newSha : String) : String :=
  s!"{oldSha} {newSha} refs/heads/main{nul} report-status\n"

theorem commandLine_eq (oldSha newSha : String) : commandLine oldSha newSha = String.ofList
    ((oldSha.toList ++ ' ' :: (newSha.toList ++ ' ' ::
      ("refs/heads/main".toList ++ nul :: " report-status".toList))) ++ ['\n']) := by
  refine String.toList_inj.mp ?_
  simp [commandLine, toString, nul]

theorem readPktLines_deleteBody :
    readPktLines deleteBody = some ([Utf8.encode (commandLine oldMain zeroSha)], []) := by
  decide +kernel

theorem parseCommand_deleteLine :
    parseCommand (Utf8.encode (commandLine oldMain zeroSha)) = some deleteMain := by
  have hzero : zeroSha.toList = List.replicate 40 '0' := String.toList_ofList
  have htext : JsText.trim (JsText.textDecode (Utf8.encode (commandLine oldMain zeroSha))) =
      String.ofList (oldMain.toList ++ ' ' :: (zeroSha.toList ++ ' ' ::
        ("refs/heads/main".toList ++ nul :: " report-status".toList))) := by
    rw [JsText.textDecode_encode (by decide +kernel), commandLine_eq, hzero]
    exact JsText.trim_append (by decide +kernel) (by decide +kernel)
      (List.append_ne_nil_of_right_ne_nil _ (List.cons_ne_nil _ _)) rfl
  have hne : oldMain ≠ zeroSha := by decide +kernel
  rw [parseCommand_of_nul htext (by decide +kernel) (by decide +kernel) (by decide +kernel),
    String.ofList_toList, String.ofList_toList, String.ofList_toList, if_neg hne]
  rfl

theorem parseRequest_deleteBody : parseRequest deleteBody = some ([deleteMain], []) := by
  have hupdates : [Utf8.encode (commandLine oldMain zeroSha)].filterMap parseCommand =
      [deleteMain] := by
    rw [List.filterMap_cons_some parseCommand_deleteLine, List.filterMap_nil]
  rw [parseRequest, readPktLines_deleteBody, ← hupdates]
  rfl

theorem deletion_reported_unsent :
    (handleReceivePackBody referenceCrates quietRpc mainContract "alice"
        deleteBody).report = some ["unpack ok", "ok refs/heads/main"] ∧
      ¬ (handleReceivePackBody referenceCrates quietRpc mainContract "alice"
        deleteBody).Truthful (commandedUpdates deleteBody) := by
  constructor
  · rw [handleReceivePackBody, parseRequest_deleteBody]
    decide +kernel
  · rw [commandedUpdates_eq parseRequest_deleteBody,
      truthful_without_pack parseRequest_deleteBody]
    exact List.cons_ne_nil _ _

end NearGit.ServiceWorker
