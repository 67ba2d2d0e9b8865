import NearGit.Contract.Acceptance
import NearGit.FrontEnds
import NearGit.WasmLib.Builders

/-! `handle_near_call` of git-server: calls of the contract that come as JSON, next to the pushes
that git sends. -/

namespace NearGit.Contract
open Lib

/-- A method other than `push`, by its name. The contract is gone after `self_delete`. -/
def GitStorage.callMethod (s : GitStorage) (predecessor method : String) (input : Bytes) :
    Option (Option GitStorage) :=
  if method = "clear_storage" then (s.clearStorage predecessor).toOption.map some
  else if method = "self_delete" then
    if predecessor = s.owner then some none else none
  else if method = "get_refs" ∨ method = "get_pack_count" ∨ method = "get_owner" then some (some s)
  else if method = "get_packs" then
    ((Borsh.uint 4).tryFromSlice input).map fun _ => some s
  else none

end NearGit.Contract

namespace NearGit.GitServer
open Lib NearGit.Contract NearGit.PushRequest
open NearGit.WasmLib (Json)

/-! ## The handler -/

def asArray : Json → Option (List Json)
  | .array values => some values
  | _ => none

def nearCallUpdate (u : Json) : RefUpdate where
  name := (u.index "name").asStr.getD ""
  oldSha := (u.index "old_sha").asStr
  newSha := (u.index "new_sha").asStr.getD ""

def nearCallPack (args : Json) : Bytes :=
  let packB64 := (args.index "pack_data").asStr.getD ""
  -- `unwrap_or_default`
  (Base64.decodeStandard packB64).getD []

def nearCallUpdates (args : Json) : List RefUpdate :=
  ((asArray (args.index "ref_updates")).map fun arr => arr.map nearCallUpdate).getD []

inductive CallResponse
  | success
  | failed (error : String)
deriving DecidableEq

def callResponse (failure : String) : Answer → Option CallResponse
  | .success => some .success
  | .failure _ => some (.failed failure)
  | .error e => some (.failed e)
  | .threw => none

/-- `accepted` are the arguments of the pushes that the contract has accepted. There is no response
where the handler panics. -/
structure NearCalled where
  contract : Option GitStorage
  accepted : List Bytes
  response : Option CallResponse

def nearCallPush (contract : GitStorage) (ownerId : String) (delivery : Delivery) (args : Json) :
    NearCalled :=
  match encodePushArgs (nearCallPack args) (nearCallUpdates args) with
  | .ok input =>
    let pushed := if delivery.executed then contract.pushSerialized ownerId input else none
    { contract := some (pushed.getD contract)
      accepted := if pushed.isSome then [input] else []
      response := callResponse "push failed" (delivery.answer pushed.isSome) }
  | _ => { contract := some contract, accepted := [], response := none }

/-- What is used of `serde_json`: values from bytes, and the arguments of a call as bytes. -/
structure SerdeValue where
  fromSlice : Bytes → Except String Json
  toVec : Json → Bytes

def handleNearCall (S : SerdeValue) (contract : GitStorage) (ownerId : String)
    (delivery : Delivery) (body : Bytes) : NearCalled :=
  match S.fromSlice body with
  | .error e => { contract := some contract, accepted := [], response := some (.failed e) }
  | .ok request =>
    let method := (request.index "method").asStr.getD ""
    let args := request.index "args"
    if method = "push" then nearCallPush contract ownerId delivery args
    else
      let called :=
        if delivery.executed then contract.callMethod ownerId method (S.toVec args) else none
      { contract := called.getD (some contract)
        accepted := []
        response := callResponse "transaction failed" (delivery.answer called.isSome) }

/-! ## The same push, sent by git -/

structure IsUpdate (v : Json) (u : RefUpdate) : Prop where
  name : v.index "name" = .string u.name
  oldSha : (v.index "old_sha").asStr = u.oldSha
  newSha : v.index "new_sha" = .string u.newSha

structure IsPushOf (args : Json) (r : AnyRequest) : Prop where
  pack : ∃ text, args.index "pack_data" = .string text ∧ Base64.decodeStandard text = some r.pack
  updates : ∃ values, args.index "ref_updates" = .array values ∧
    List.Forall₂ IsUpdate values r.updates

theorem IsUpdate.nearCallUpdate_eq {v : Json} {u : RefUpdate} (h : IsUpdate v u) :
    nearCallUpdate v = u := by
  unfold nearCallUpdate
  rw [h.name, h.oldSha, h.newSha]
  rfl

theorem IsPushOf.nearCallPack_eq {args : Json} {r : AnyRequest} (h : IsPushOf args r) :
    nearCallPack args = r.pack := by
  obtain ⟨text, htext, hdecode⟩ := h.pack
  unfold nearCallPack
  rw [htext]
  show (Base64.decodeStandard text).getD [] = r.pack
  rw [hdecode]
  rfl

theorem IsPushOf.nearCallUpdates_eq {args : Json} {r : AnyRequest} (h : IsPushOf args r) :
    nearCallUpdates args = r.updates := by
  obtain ⟨values, hvalues, hupdates⟩ := h.updates
  unfold nearCallUpdates
  rw [hvalues]
  show values.map nearCallUpdate = r.updates
  rw [← List.forall₂_eq_eq_eq, List.forall₂_map_left_iff]
  exact hupdates.imp fun v u hu => hu.nearCallUpdate_eq

def Carries (S : SerdeValue) (body : Bytes) (r : AnyRequest) : Prop :=
  ∃ request, S.fromSlice body = .ok request ∧ request.index "method" = .string "push" ∧
    IsPushOf (request.index "args") r

section Agrees
variable {S : SerdeValue} {body : Bytes}

theorem handleNearCall_push {request : Json} (hrequest : S.fromSlice body = .ok request)
    (hmethod : (request.index "method").asStr = some "push") (contract : GitStorage)
    (ownerId : String) (delivery : Delivery) : handleNearCall S contract ownerId delivery body =
      nearCallPush contract ownerId delivery (request.index "args") := by
  unfold handleNearCall
  simp only [hrequest, hmethod, Option.getD_some, if_true]

theorem unpackOk_mem_statusLines {names : List String} {answer : Answer} :
    "unpack ok" ∈ statusLines names answer ↔ answer = .success := by
  have hother {line : String} (hline : line.toList.head? ≠ some 'u') : "unpack ok" ∉ [line] := by
    intro hmem
    rw [← List.mem_singleton.mp hmem] at hline
    exact hline rfl
  cases answer with
  | success => exact iff_of_true List.mem_cons_self rfl
  | failure err => exact iff_of_false (hother (by simp [toString])) nofun
  | error | threw => exact iff_of_false (hother (by simp)) nofun

theorem callResponse_eq_success {failure : String} {answer : Answer} :
    callResponse failure answer = some .success ↔ answer = .success := by
  cases answer with
  | success => exact iff_of_true rfl rfl
  | failure | error | threw => exact iff_of_false nofun nofun

theorem nearCallPush_of_args {contract : GitStorage} {ownerId : String} {delivery : Delivery}
    {args : Json} {input : Bytes}
    (h : encodePushArgs (nearCallPack args) (nearCallUpdates args) = .ok input) :
    nearCallPush contract ownerId delivery args =
      let pushed := if delivery.executed then contract.pushSerialized ownerId input else none
      { contract := some (pushed.getD contract)
        accepted := if pushed.isSome then [input] else []
        response := callResponse "push failed" (delivery.answer pushed.isSome) } := by
  unfold nearCallPush
  rw [h]

theorem nearCallPush_of_none {contract : GitStorage} {ownerId : String} {delivery : Delivery}
    {args : Json} (h : (encodePushArgs (nearCallPack args) (nearCallUpdates args)).toOption = none) :
    nearCallPush contract ownerId delivery args =
      { contract := some contract, accepted := [], response := none } := by
  unfold nearCallPush
  split
  · next input hinput =>
    rw [hinput] at h
    cases h
  · rfl

/-- A push as JSON does to the contract what the same push does that git sends, and is answered
with success exactly where the report of the other begins with `unpack ok`. -/
theorem near_call_agrees {r : AnyRequest} (h : Carries S body r) (contract : GitStorage)
    (ownerId : String) (delivery : Delivery) :
    (handleNearCall S contract ownerId delivery body).contract =
        some (handleReceivePack contract ownerId delivery r.body).contract ∧
      (handleNearCall S contract ownerId delivery body).accepted =
        (handleReceivePack contract ownerId delivery r.body).accepted ∧
      ((handleNearCall S contract ownerId delivery body).response = some .success ↔
        ∃ report, (handleReceivePack contract ownerId delivery r.body).report = some report ∧
          "unpack ok" ∈ report) := by
  obtain ⟨request, hrequest, hmethod, hpush⟩ := h
  have hmethod' : (request.index "method").asStr = some "push" := by
    rw [hmethod]
    rfl
  have hsame : (encodePushArgs (nearCallPack (request.index "args"))
      (nearCallUpdates (request.index "args"))).toOption = sentPush r.body := by
    rw [hpush.nearCallPack_eq, hpush.nearCallUpdates_eq, sentPush,
      FrontEnds.Served.gitServer_pack, r.gitServer_reads]
  rw [handleNearCall_push hrequest hmethod']
  rcases hargs : sentPush r.body with _ | args
  · rw [handleReceivePack_of_unsent hargs, nearCallPush_of_none (hsame.trans hargs)]
    refine ⟨rfl, rfl, iff_of_false ?_ ?_⟩
    · intro h
      cases h
    · rintro ⟨report, hreport, -⟩
      cases hreport
  · rw [handleReceivePack_of_sent hargs,
      nearCallPush_of_args (Outcome.toOption_eq_some.mp (hsame.trans hargs))]
    refine ⟨rfl, rfl, callResponse_eq_success.trans ?_⟩
    simp only [sendPush, Option.some.injEq, exists_eq_left']
    exact unpackOk_mem_statusLines.symm

end Agrees

def createAText : String :=
  "\x7b\"method\":\"push\",\"args\":\x7b\"pack_data\":\"\",\"ref_updates\":[" ++
  "\x7b\"name\":\"refs/a\",\"old_sha\":null," ++
  "\"new_sha\":\"bbbbbbbbbbbbbbbbbbbbbbbbbbbbbbbbbbbbbbbb\"\x7d]\x7d\x7d"

def createAJson : Json :=
  .object [("method", .string "push"), ("args", .object [
    ("pack_data", .string ""),
    ("ref_updates", .array [.object [("name", .string "refs/a"), ("old_sha", .null),
      ("new_sha", .string "bbbbbbbbbbbbbbbbbbbbbbbbbbbbbbbbbbbbbbbb")]])])]

def createASerde : SerdeValue where
  fromSlice body :=
    if body = Utf8.encode createAText then .ok createAJson
    else .error "expected value at line 1 column 1"
  toVec _ := Utf8.encode "null"

theorem near_call_agrees_createA :
    (handleNearCall createASerde (.new "owner") "owner" (.answered "")
        (Utf8.encode createAText)).contract =
      some (handleReceivePack (.new "owner") "owner" (.answered "") createA.body).contract ∧
    (handleNearCall createASerde (.new "owner") "owner" (.answered "")
        (Utf8.encode createAText)).response = some .success := by
  have hupdate : IsUpdate (.object [("name", .string "refs/a"), ("old_sha", .null),
      ("new_sha", .string "bbbbbbbbbbbbbbbbbbbbbbbbbbbbbbbbbbbbbbbb")]) createA.first.update := by
    constructor
    · exact congrArg Json.string (show "refs/a" = createA.first.update.name by decide)
    · decide
    · exact congrArg Json.string (show _ = createA.first.update.newSha by decide)
  have hparse : createASerde.fromSlice (Utf8.encode createAText) = .ok createAJson := by
    simp only [createASerde, if_true]
  have hcarries : Carries createASerde (Utf8.encode createAText) (.commands createA) :=
    ⟨createAJson, hparse, rfl, ⟨"", rfl, by decide⟩, _, rfl, .cons hupdate .nil⟩
  obtain ⟨hcontract, -, hresponse⟩ := near_call_agrees hcarries (.new "owner") "owner"
    (.answered "")
  refine ⟨hcontract, hresponse.mpr ?_⟩
  obtain ⟨hupdates, hpack⟩ := gitServer_decodes createA
  obtain ⟨args, hargs⟩ : ∃ args, encodePushArgs createA.pack createA.updates = .ok args := ⟨_, rfl⟩
  obtain ⟨s, hpush⟩ : ∃ s, (GitStorage.new "owner").push "owner" createA.pack createA.updates =
    .ok s := ⟨_, rfl⟩
  have hanswered : handleReceivePack (.new "owner") "owner" (.answered "") createA.body = _ :=
    handleReceivePack_answered hpack hupdates hargs hpush
  exact ⟨_, congrArg Handled.report hanswered, List.mem_cons_self⟩

/-! ## What can happen to a ref -/

theorem eq_string_of_getD {v : Json} {text : String} (h : v.asStr.getD "" = text) (hne : text ≠ "") :
    v = .string text := by
  cases v with
  | string text' => exact congrArg Json.string h
  | null | bool | number | array | object => exact absurd h.symm hne

inductive Submitted
  | git (delivery : Delivery) (r : AnyRequest)
  | call (delivery : Delivery) (body : Bytes)

/-- Nothing can be done to a contract that is gone. -/
def Submitted.serve (S : SerdeValue) (ownerId : String) (contract : Option GitStorage) :
    Submitted → Option GitStorage
  | .git delivery r => contract.map fun s => (handleReceivePack s ownerId delivery r.body).contract
  | .call delivery body => contract.bind fun s => (handleNearCall S s ownerId delivery body).contract

def Expects (args : Json) (name : String) (old : Option String) : Prop :=
  ∃ values v, args.index "ref_updates" = .array values ∧ v ∈ values ∧
    (v.index "name").asStr.getD "" = name ∧ (v.index "old_sha").asStr = old

/-- The request names the ref together with what it is to be at, or it clears the contract. -/
def Submitted.Moves (S : SerdeValue) (name : String) (old : Option String) : Submitted → Prop
  | .git _ r => ∃ u ∈ r.updates, u.name = name ∧ u.oldSha = old
  | .call _ body => ∃ request, S.fromSlice body = .ok request ∧
    ((request.index "method" = .string "push" ∧ Expects (request.index "args") name old) ∨
      request.index "method" = .string "clear_storage")

def Submitted.Deletes (S : SerdeValue) : Submitted → Prop
  | .git _ _ => False
  | .call _ body => ∃ request, S.fromSlice body = .ok request ∧
    request.index "method" = .string "self_delete"

section Runs
variable {S : SerdeValue} {ownerId : String} {s s' : GitStorage}

theorem expects_of_mem {args : Json} {u : RefUpdate} (h : u ∈ nearCallUpdates args) :
    Expects args u.name u.oldSha := by
  unfold nearCallUpdates at h
  rcases hvalues : args.index "ref_updates" with _ | _ | _ | _ | values | _
  all_goals rw [hvalues] at h
  case array =>
    obtain ⟨v, hv, rfl⟩ := List.mem_map.mp h
    exact ⟨values, v, hvalues, hv, rfl, rfl⟩
  all_goals cases h

theorem nearCallPush_cases (s : GitStorage) (ownerId : String) (delivery : Delivery) (args : Json) :
    (nearCallPush s ownerId delivery args).contract = some s ∨ ∃ s',
      s.push ownerId (nearCallPack args) (nearCallUpdates args) = .ok s' ∧
      (nearCallPush s ownerId delivery args).contract = some s' := by
  rcases hargs : (encodePushArgs (nearCallPack args) (nearCallUpdates args)).toOption with _ | input
  · rw [nearCallPush_of_none hargs]
    exact .inl rfl
  · rw [nearCallPush_of_args (Outcome.toOption_eq_some.mp hargs)]
    rcases hpushed : (if delivery.executed then s.pushSerialized ownerId input else none) with _ | s'
    · exact .inl rfl
    · have hsome : s.pushSerialized ownerId input = some s' := by
        split_ifs at hpushed
        exact hpushed
      rw [GitStorage.pushSerialized_of_decode
        (decode_encodePushArgs (Outcome.toOption_eq_some.mp hargs))] at hsome
      exact .inr ⟨s', except_toOption_eq_some.mp hsome, rfl⟩

theorem callMethod_cases {method : String} {input : Bytes} {after : Option GitStorage}
    (h : s.callMethod ownerId method input = some after) :
    after = some s ∨ method = "clear_storage" ∧ after.isSome ∨
      method = "self_delete" ∧ after = none := by
  unfold GitStorage.callMethod at h
  split_ifs at h with hclear hdelete howner
  · obtain ⟨s', -, rfl⟩ := Option.map_eq_some_iff.mp h
    exact .inr (.inl ⟨hclear, rfl⟩)
  · exact .inr (.inr ⟨hdelete, (Option.some.inj h).symm⟩)
  · exact .inl (Option.some.inj h).symm
  · obtain ⟨fromIndex, -, rfl⟩ := Option.map_eq_some_iff.mp h
    exact .inl rfl

theorem handleNearCall_cases (S : SerdeValue) (s : GitStorage) (ownerId : String)
    (delivery : Delivery) (body : Bytes) :
    let after := (handleNearCall S s ownerId delivery body).contract
    after = some s ∨ ∃ request, S.fromSlice body = .ok request ∧
      ((request.index "method" = .string "push" ∧ ∃ s', s.push ownerId
          (nearCallPack (request.index "args")) (nearCallUpdates (request.index "args")) = .ok s' ∧
          after = some s') ∨
        (request.index "method" = .string "clear_storage" ∧ after.isSome) ∨
        (request.index "method" = .string "self_delete" ∧ after = none)) := by
  intro after
  rcases hrequest : S.fromSlice body with e | request
  · left
    show (handleNearCall S s ownerId delivery body).contract = some s
    unfold handleNearCall
    rw [hrequest]
  by_cases hpush : (request.index "method").asStr.getD "" = "push"
  · have hmethod := eq_string_of_getD hpush (by decide)
    have hafter : after = (nearCallPush s ownerId delivery (request.index "args")).contract := by
      have hcall := handleNearCall_push hrequest (by rw [hmethod]; rfl) s ownerId delivery
      exact congrArg NearCalled.contract hcall
    rw [hafter]
    rcases nearCallPush_cases s ownerId delivery (request.index "args") with hsame | hpushed
    · exact .inl hsame
    · exact .inr ⟨request, rfl, .inl ⟨hmethod, hpushed⟩⟩
  · have hafter : after = (if delivery.executed then
        s.callMethod ownerId ((request.index "method").asStr.getD "")
          (S.toVec (request.index "args")) else none).getD (some s) := by
      show (handleNearCall S s ownerId delivery body).contract = _
      unfold handleNearCall
      simp only [hrequest, if_neg hpush]
    rw [hafter]
    rcases hcalled : (if delivery.executed then
        s.callMethod ownerId ((request.index "method").asStr.getD "")
          (S.toVec (request.index "args")) else none) with _ | called
    · exact .inl rfl
    · split_ifs at hcalled
      rcases callMethod_cases hcalled with rfl | ⟨hmethod, hclear⟩ | ⟨hmethod, hgone⟩
      · exact .inl rfl
      · exact .inr ⟨request, rfl, .inr (.inl ⟨eq_string_of_getD hmethod (by decide), hclear⟩)⟩
      · exact .inr ⟨request, rfl, .inr (.inr ⟨eq_string_of_getD hmethod (by decide), hgone⟩)⟩

theorem Submitted.serve_changed {request : Submitted}
    (h : request.serve S ownerId (some s) = some s') (name : String) :
    s'.refs.get name = s.refs.get name ∨ request.Moves S name (s.refs.get name) := by
  cases request with
  | git delivery r =>
    have hafter : (handleReceivePack s ownerId delivery r.body).contract = s' := Option.some.inj h
    rcases handleReceivePack_cases s ownerId delivery r.body with ⟨-, hsame⟩ | hpushed
    · exact .inl (by rw [← hafter, hsame])
    · obtain ⟨args, packData, -, -, hpush⟩ := hpushed
      rw [r.gitServer_reads, hafter] at hpush
      exact push_changed hpush name
  | call delivery body =>
    have hafter : (handleNearCall S s ownerId delivery body).contract = some s' := h
    rcases handleNearCall_cases S s ownerId delivery body with hsame | ⟨request, hrequest, hcases⟩
    · rw [hafter] at hsame
      exact .inl (by rw [Option.some.inj hsame])
    rcases hcases with ⟨hmethod, s₁, hpush, hs₁⟩ | ⟨hmethod, -⟩ | ⟨-, hgone⟩
    · rw [hafter] at hs₁
      cases hs₁
      rcases push_changed hpush name with hsame | ⟨u, hu, rfl, hold⟩
      · exact .inl hsame
      · exact .inr ⟨request, hrequest, .inl ⟨hmethod, hold ▸ expects_of_mem hu⟩⟩
    · exact .inr ⟨request, hrequest, .inr hmethod⟩
    · cases hafter.symm.trans hgone

theorem Submitted.serve_gone {request : Submitted}
    (h : request.serve S ownerId (some s) = none) : request.Deletes S := by
  cases request with
  | git delivery r => cases h
  | call delivery body =>
    have hafter : (handleNearCall S s ownerId delivery body).contract = none := h
    rcases handleNearCall_cases S s ownerId delivery body with hsame | ⟨request, hrequest, hcases⟩
    · cases hafter.symm.trans hsame
    rcases hcases with ⟨-, s₁, -, hs₁⟩ | ⟨-, hclear⟩ | ⟨hmethod, -⟩
    · cases hafter.symm.trans hs₁
    · rw [hafter] at hclear
      cases hclear
    · exact ⟨request, hrequest, hmethod⟩

theorem serve_none (requests : List Submitted) :
    requests.foldl (Submitted.serve S ownerId) none = none := by
  induction requests with
  | nil => rfl
  | cons request requests ih =>
    have hnone : request.serve S ownerId none = none := by cases request <;> rfl
    rw [List.foldl_cons, hnone, ih]

/-- Whatever is sent to the server by git or as JSON, well formed or not: a ref is moved only by a
request that names it together with the SHA it is at (or with none, if it is absent), or that
clears the contract, and the contract goes only by a `self_delete`. -/
theorem refs_move_by_name (S : SerdeValue) (ownerId : String) (s : GitStorage)
    (requests : List Submitted) :
    (∀ s', requests.foldl (Submitted.serve S ownerId) (some s) = some s' → ∀ name,
      s'.refs.get name = s.refs.get name ∨
        ∃ request ∈ requests, request.Moves S name (s.refs.get name)) ∧
    (requests.foldl (Submitted.serve S ownerId) (some s) = none →
      ∃ request ∈ requests, request.Deletes S) := by
  induction requests generalizing s with
  | nil =>
    refine ⟨fun s' h name => .inl ?_, nofun⟩
    rw [Option.some.inj h]
  | cons request requests ih =>
    rw [List.foldl_cons]
    rcases hserve : request.serve S ownerId (some s) with _ | s₁
    · refine ⟨fun s' h => ?_, fun _ => ⟨request, List.mem_cons_self, Submitted.serve_gone hserve⟩⟩
      rw [serve_none] at h
      cases h
    obtain ⟨hmoves, hdeletes⟩ := ih s₁
    constructor
    · intro s' h name
      rcases Submitted.serve_changed hserve name with hsame | hmove
      · rw [← hsame]
        refine (hmoves s' h name).imp_right ?_
        rintro ⟨later, hlater, hmove⟩
        exact ⟨later, List.mem_cons_of_mem _ hlater, hmove⟩
      · exact .inr ⟨request, List.mem_cons_self, hmove⟩
    · intro h
      obtain ⟨later, hlater, hdelete⟩ := hdeletes h
      exact ⟨later, List.mem_cons_of_mem _ hlater, hdelete⟩

end Runs

end NearGit.GitServer
