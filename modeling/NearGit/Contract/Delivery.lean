import NearGit.Contract.PushArgs

/-! What a front end gets to know of a `push` transaction that it sends, and what the contract
does with it. -/

namespace NearGit.Contract
open Lib

/-- `push` from its serialized arguments on; input that does not deserialize is a panic. -/
def GitStorage.pushSerialized (s : GitStorage) (predecessor : String) (input : Bytes) :
    Option GitStorage := do
  let (packData, refUpdates) ← decodePushArgs input
  (s.push predecessor packData refUpdates).toOption

/-- Either the transaction is executed and its outcome comes back, as `failure` where it failed;
or an error comes back, or nothing does, and it may have been executed all the same. -/
inductive Delivery
  | answered (failure : String)
  | errored (executed : Bool) (error : String)
  | threw (executed : Bool)

inductive Answer
  | success
  | failure (failure : String)
  | error (error : String)
  | threw
deriving DecidableEq

def Delivery.executed : Delivery → Bool
  | .answered _ => true
  | .errored executed _ | .threw executed => executed

def Delivery.answer (d : Delivery) (succeeded : Bool) : Answer :=
  match d with
  | .answered failure => if succeeded then .success else .failure failure
  | .errored _ error => .error error
  | .threw _ => .threw

def Delivery.failureText : Delivery → Option String
  | .answered failure => some failure
  | .errored _ error => some error
  | .threw _ => none

/-- `accepted` are the arguments of the `push` transactions that the contract has accepted, and
`report` the status lines of the response, if it is one. -/
structure Handled where
  contract : GitStorage
  accepted : List Bytes
  report : Option (List String)

def sendPush (contract : GitStorage) (caller : String) (input : Bytes) (delivery : Delivery)
    (respond : Answer → Option (List String)) : Handled :=
  let pushed := if delivery.executed then contract.pushSerialized caller input else none
  { contract := pushed.getD contract
    accepted := if pushed.isSome then [input] else []
    report := respond (delivery.answer pushed.isSome) }

/-- Where the report says `ok` for the ref of a commanded update, that very update has been in a
transaction that the contract accepted. -/
def Handled.Truthful (h : Handled) (commanded : List RefUpdate) : Prop :=
  ∀ report, h.report = some report → ∀ u ∈ commanded, s!"ok {u.name}" ∈ report →
    ∃ input ∈ h.accepted, ∃ packData refUpdates,
      decodePushArgs input = some (packData, refUpdates) ∧ u ∈ refUpdates

theorem GitStorage.pushSerialized_eq_some {s s' : GitStorage} {predecessor : String}
    {input : Bytes} : s.pushSerialized predecessor input = some s' ↔
      ∃ packData refUpdates, decodePushArgs input = some (packData, refUpdates) ∧
        s.push predecessor packData refUpdates = .ok s' := by
  rw [pushSerialized, Option.bind_eq_bind, Option.bind_eq_some_iff]
  constructor
  · rintro ⟨⟨packData, refUpdates⟩, hdecode, hpush⟩
    exact ⟨packData, refUpdates, hdecode, except_toOption_eq_some.mp hpush⟩
  · rintro ⟨packData, refUpdates, hdecode, hpush⟩
    exact ⟨(packData, refUpdates), hdecode, except_toOption_eq_some.mpr hpush⟩

theorem GitStorage.pushSerialized_of_decode {s : GitStorage} {predecessor : String} {input : Bytes}
    {packData : Bytes} {refUpdates : List RefUpdate}
    (h : decodePushArgs input = some (packData, refUpdates)) :
    s.pushSerialized predecessor input = (s.push predecessor packData refUpdates).toOption := by
  rw [pushSerialized, h]
  rfl

theorem ok_ne_of_head {name line : String} (h : line.toList.head? ≠ some 'o') :
    s!"ok {name}" ≠ line := by
  rintro rfl
  exact h (by simp [toString])

theorem truthful_of_no_ok {h : Handled} {commanded : List RefUpdate}
    (hnone : ∀ report, h.report = some report → ∀ name : String, s!"ok {name}" ∉ report) :
    h.Truthful commanded :=
  fun report hreport u _ hok => absurd hok (hnone report hreport u.name)

def AnsweredOk (contract : GitStorage) (caller : String) (input : Bytes) (delivery : Delivery) :
    Prop :=
  (∃ failure, delivery = .answered failure) ∧ (contract.pushSerialized caller input).isSome

section SendPush
variable {contract : GitStorage} {caller : String} {input : Bytes} {delivery : Delivery}
  {respond : Answer → Option (List String)}

theorem sendPush_cases (contract : GitStorage) (caller : String) (input : Bytes)
    (delivery : Delivery) (respond : Answer → Option (List String)) :
    let h := sendPush contract caller input delivery respond
    (h.accepted = [] ∧ h.contract = contract) ∨
      (h.accepted = [input] ∧ contract.pushSerialized caller input = some h.contract) := by
  rcases hpushed : (if delivery.executed then contract.pushSerialized caller input else none)
    with _ | contract'
  · simp [sendPush, hpushed]
  · have hsome : contract.pushSerialized caller input = some contract' := by
      split_ifs at hpushed
      exact hpushed
    simp only [sendPush, hpushed]
    exact .inr ⟨rfl, hsome⟩

theorem sendPush_of_answeredOk (h : AnsweredOk contract caller input delivery) :
    (sendPush contract caller input delivery respond).accepted = [input] ∧
      (sendPush contract caller input delivery respond).report = respond .success := by
  obtain ⟨⟨failure, rfl⟩, hsome⟩ := h
  have hexecuted : (Delivery.answered failure).executed = true := rfl
  simp only [sendPush, if_pos hexecuted, if_pos hsome, Delivery.answer]
  exact ⟨trivial, trivial⟩

theorem sendPush_report_of_not_answeredOk (h : ¬ AnsweredOk contract caller input delivery) :
    (sendPush contract caller input delivery respond).report = respond (delivery.answer false) := by
  cases delivery with
  | answered failure =>
    have hexecuted : (Delivery.answered failure).executed = true := rfl
    have hnone : ¬ (contract.pushSerialized caller input).isSome := fun hsome =>
      h ⟨⟨failure, rfl⟩, hsome⟩
    simp only [sendPush, if_pos hexecuted, Bool.eq_false_iff.mpr hnone]
  | errored => rfl
  | threw => rfl

theorem sendPush_of_not_answeredOk (h : ¬ AnsweredOk contract caller input delivery) :
    ∃ answer, answer ≠ .success ∧
      (sendPush contract caller input delivery respond).report = respond answer := by
  refine ⟨_, ?_, sendPush_report_of_not_answeredOk h⟩
  cases delivery <;> exact nofun

theorem sendPush_answered {contract' : GitStorage} {failure : String}
    (h : contract.pushSerialized caller input = some contract') :
    sendPush contract caller input (.answered failure) respond =
      { contract := contract', accepted := [input], report := respond .success } := by
  have hexecuted : (Delivery.answered failure).executed = true := rfl
  rw [sendPush, if_pos hexecuted, h]
  rfl

end SendPush

end NearGit.Contract
