import NearGit.Contract.Delivery
import NearGit.Lib.Outcome
import NearGit.Lib.Text
import NearGit.PktLine

/-! `handle_receive_pack` of git-server. -/

namespace NearGit.GitServer
open Lib NearGit.Contract

/-- `serialize(..).unwrap()`. -/
def unwrapSerialized : Option Bytes → Outcome Bytes
  | some bytes => .ok bytes
  | none => .panic (.message "called `Result::unwrap()` on an `Err` value")

def encodePushArgs (packData : Bytes) (refUpdates : List RefUpdate) : Outcome Bytes := do
  let pack ← unwrapSerialized (Borsh.bytes.serialize packData)
  let updates ← unwrapSerialized ((Borsh.vec refUpdateCodec).serialize refUpdates)
  return pack ++ updates

/-! ## The commands -/

def zeroSha : String := String.ofList (List.replicate 40 '0')

/-- `trim_end_matches('\n')`. -/
def trimEndLf (s : String) : String := String.ofList (s.toList.rdropWhile (· = '\n'))

/-- `split('\0').next()`. -/
def beforeNul (s : String) : String := String.ofList (s.toList.takeWhile (· ≠ Char.ofNat 0))

/-- The update that a command line stands for; a line of fewer than three parts is passed over. -/
def parseCommand (cmd : Bytes) : Option RefUpdate := do
  let line := trimEndLf (Utf8.decodeLossy cmd)
  -- `splitn(3, ' ')`
  let (first, rest) ← Text.splitOnce ' ' line
  let (newSha, third) ← Text.splitOnce ' ' rest
  let oldSha := beforeNul first
  return {
    name := beforeNul third
    oldSha := if oldSha = zeroSha then none else some oldSha
    newSha }

def commandedUpdates (body : Bytes) : List RefUpdate :=
  (PktLine.readUntilFlush body).1.filterMap parseCommand

theorem beforeNul_append {l : List Char} (h : Char.ofNat 0 ∉ l) (rest : List Char) :
    beforeNul (String.ofList (l ++ Char.ofNat 0 :: rest)) = String.ofList l := by
  have hall : ∀ a ∈ l, decide (a ≠ Char.ofNat 0) = true :=
    fun a ha => decide_eq_true fun heq => h (heq ▸ ha)
  rw [beforeNul, String.toList_ofList, List.takeWhile_append_of_pos hall]
  simp

theorem beforeNul_eq_self {l : List Char} (h : Char.ofNat 0 ∉ l) :
    beforeNul (String.ofList l) = String.ofList l := by
  rw [beforeNul, String.toList_ofList, List.takeWhile_eq_self_iff.mpr]
  exact fun a ha => decide_eq_true fun heq => h (heq ▸ ha)

theorem parseCommand_of_line {cmd : Bytes} {oldSha newSha third : List Char}
    (hline : trimEndLf (Utf8.decodeLossy cmd) =
      String.ofList (oldSha ++ ' ' :: (newSha ++ ' ' :: third)))
    (hold : ' ' ∉ oldSha ∧ Char.ofNat 0 ∉ oldSha) (hnew : ' ' ∉ newSha) :
    parseCommand cmd = some {
      name := beforeNul (String.ofList third)
      oldSha := if String.ofList oldSha = zeroSha then none else some (String.ofList oldSha)
      newSha := String.ofList newSha } := by
  rw [parseCommand, hline]
  simp only [Text.splitOnce_append hold.1, Text.splitOnce_append hnew, Option.bind_eq_bind,
    Option.bind_some, beforeNul_eq_self hold.2, Option.pure_def]

theorem parseCommand_encode {oldSha newSha name capabilities : List Char}
    (hold : ' ' ∉ oldSha ∧ Char.ofNat 0 ∉ oldSha) (hnew : ' ' ∉ newSha)
    (hname : Char.ofNat 0 ∉ name) :
    parseCommand (Utf8.encode (String.ofList
        (oldSha ++ ' ' :: (newSha ++ ' ' :: (name ++ Char.ofNat 0 :: capabilities))))) = some {
      name := String.ofList name
      oldSha := if String.ofList oldSha = zeroSha then none else some (String.ofList oldSha)
      newSha := String.ofList newSha } := by
  have hnul : decide (Char.ofNat 0 = '\n') = false := rfl
  have hline : trimEndLf (Utf8.decodeLossy (Utf8.encode (String.ofList
        (oldSha ++ ' ' :: (newSha ++ ' ' :: (name ++ Char.ofNat 0 :: capabilities)))))) =
      String.ofList (oldSha ++ ' ' :: (newSha ++ ' ' :: (name ++
        Char.ofNat 0 :: capabilities.rdropWhile (· = '\n')))) := by
    have hdrop := Text.rdropWhile_append_cons (p := (decide <| · = '\n')) hnul
      (oldSha ++ ' ' :: (newSha ++ ' ' :: name)) capabilities
    simp only [List.append_assoc, List.cons_append] at hdrop
    rw [Utf8.decodeLossy_encode, trimEndLf, String.toList_ofList, hdrop]
  rw [parseCommand_of_line hline hold hnew, beforeNul_append hname]

/-! ## The handler -/

def statusLines (refNames : List String) : Answer → List String
  | .success => "unpack ok" :: refNames.map fun name => s!"ok {name}"
  | .failure err => [s!"ng unpack {err}"]
  | .error _ | .threw => ["ng unpack contract call failed"]

/-- The handler, for the contract as it is when the transaction is executed. There is no response
where the arguments do not serialize. -/
def handleReceivePack (contract : GitStorage) (ownerId : String) (delivery : Delivery)
    (body : Bytes) : Handled :=
  let request := PktLine.readUntilFlush body
  let refUpdates := request.1.filterMap parseCommand
  match encodePushArgs request.2 refUpdates with
  | .ok args =>
    sendPush contract ownerId args delivery fun answer =>
      some (statusLines (refUpdates.map RefUpdate.name) answer)
  | _ => { contract, accepted := [], report := none }

/-- `make_receive_pack_response`. -/
def receivePackResponse (statusLines : List String) : Bytes :=
  (statusLines.flatMap fun line => PktLine.encode (Utf8.encode s!"{line}\n")) ++ PktLine.flush

theorem decode_encodePushArgs {packData : Bytes} {refUpdates : List RefUpdate} {args : Bytes}
    (h : encodePushArgs packData refUpdates = .ok args) :
    decodePushArgs args = some (packData, refUpdates) := by
  rw [encodePushArgs] at h
  rcases hpack : Borsh.bytes.serialize packData with _ | pack
  · simp [hpack, unwrapSerialized] at h
  · rcases hupdates : (Borsh.vec refUpdateCodec).serialize refUpdates with _ | updates
    · simp [hpack, hupdates, unwrapSerialized] at h
    · simp only [hpack, hupdates, unwrapSerialized, Outcome.ok_bind, Outcome.pure_eq,
        Outcome.ok.injEq] at h
      refine Borsh.Codec.tryFromSlice_eq _ ?_
      rw [pushArgsCodec, Borsh.pair]
      simp only [hpack, hupdates]
      rw [← h]
      rfl

theorem ok_notMem_statusLines {answer : Answer} (h : answer ≠ .success) (names : List String)
    (name : String) : s!"ok {name}" ∉ statusLines names answer := by
  intro hmem
  cases answer with
  | success => exact h rfl
  | failure err => exact ok_ne_of_head (by simp [toString]) (List.mem_singleton.mp hmem)
  | error | threw => exact ok_ne_of_head (by simp) (List.mem_singleton.mp hmem)

section HandleReceivePack
variable (contract : GitStorage) (ownerId : String) (delivery : Delivery) (body : Bytes)

theorem handleReceivePack_cases :
    let h := handleReceivePack contract ownerId delivery body
    (h.accepted = [] ∧ h.contract = contract) ∨
      ∃ args packData, h.accepted = [args] ∧
        decodePushArgs args = some (packData, commandedUpdates body) ∧
        contract.push ownerId packData (commandedUpdates body) = .ok h.contract := by
  simp only [handleReceivePack]
  split
  · next args hargs =>
    have hdecode := decode_encodePushArgs hargs
    rcases sendPush_cases contract ownerId args delivery _ with hnone | ⟨haccepted, hpush⟩
    · exact .inl hnone
    · refine .inr ⟨args, _, haccepted, hdecode, ?_⟩
      obtain ⟨packData, refUpdates, hdecode', hpush⟩ := GitStorage.pushSerialized_eq_some.mp hpush
      cases hdecode.symm.trans hdecode'
      exact hpush
  · exact .inl ⟨rfl, rfl⟩

theorem accepted_of_ok {report : List String} {name : String}
    (hreport : (handleReceivePack contract ownerId delivery body).report = some report)
    (hok : s!"ok {name}" ∈ report) :
    (handleReceivePack contract ownerId delivery body).accepted ≠ [] := by
  simp only [handleReceivePack] at hreport ⊢
  split
  · next args hargs =>
    simp only [hargs] at hreport
    by_cases hanswered : AnsweredOk contract ownerId args delivery
    · rw [(sendPush_of_answeredOk hanswered).1]
      exact List.cons_ne_nil _ _
    · obtain ⟨answer, hne, heq⟩ := sendPush_of_not_answeredOk hanswered
      rw [heq] at hreport
      cases hreport
      exact absurd hok (ok_notMem_statusLines hne _ name)
  · next hargs =>
    split at hreport
    · next args hargs' => exact absurd hargs' (hargs args)
    · cases hreport

theorem handleReceivePack_truthful :
    (handleReceivePack contract ownerId delivery body).Truthful (commandedUpdates body) := by
  intro report hreport u hu hok
  have haccepted := accepted_of_ok contract ownerId delivery body hreport hok
  rcases handleReceivePack_cases contract ownerId delivery body with ⟨hnone, -⟩ | hsome
  · exact absurd hnone haccepted
  · obtain ⟨args, packData, hargs, hdecode, -⟩ := hsome
    exact ⟨args, hargs ▸ List.mem_singleton_self args, packData, _, hdecode, hu⟩

end HandleReceivePack

theorem handleReceivePack_answered {contract contract' : GitStorage} {ownerId failure : String}
    {body packData args : Bytes} {refUpdates : List RefUpdate}
    (hpack : (PktLine.readUntilFlush body).2 = packData)
    (hupdates : commandedUpdates body = refUpdates)
    (hargs : encodePushArgs packData refUpdates = .ok args)
    (hpush : contract.push ownerId packData refUpdates = .ok contract') :
    handleReceivePack contract ownerId (.answered failure) body = {
      contract := contract'
      accepted := [args]
      report := some (statusLines (refUpdates.map RefUpdate.name) .success) } := by
  have hserialized : contract.pushSerialized ownerId args = some contract' := by
    rw [GitStorage.pushSerialized_of_decode (decode_encodePushArgs hargs), hpush]
    rfl
  rw [commandedUpdates] at hupdates
  rw [handleReceivePack, hpack, hupdates, hargs]
  exact sendPush_answered hserialized

end NearGit.GitServer
