import NearGit.GitServer.ReceivePack
import NearGit.PushRequest

/-! Request bodies that are no receive-pack request. The handler does not tell how the reading of
the commands has ended, so it sends its transaction for them as well. -/

namespace NearGit.GitServer
open Lib NearGit.Contract NearGit.PushRequest

/-! ## Well-formed bodies -/

def IsPktLine (line payload : Bytes) : Prop :=
  ∃ digits : List Char, digits.length = 4 ∧
    Hex.digits (2 ^ 64 - 1) digits = some (payload.length + 4) ∧
      line = Utf8.encode (String.ofList digits) ++ payload

def IsCommand (payload : Bytes) : Prop :=
  ∃ (c : Command) (tail : List Char), (tail = [] ∨ tail = ['\n'] ∨ tail.head? = some nul) ∧
    payload = Commands.payload (c.text ++ tail)

inductive WellFormed : Bytes → Prop
  | flush (pack : Bytes) : WellFormed (PktLine.flush ++ pack)
  | line {line payload rest : Bytes} : IsPktLine line payload → IsCommand payload →
      WellFormed rest → WellFormed (line ++ rest)

theorem IsPktLine.length_eq {line payload : Bytes} (h : IsPktLine line payload) :
    line.length = payload.length + 4 ∧
      ∀ rest, PktLine.fieldLength (line ++ rest) = payload.length + 4 := by
  obtain ⟨digits, hfour, hdigits, rfl⟩ := h
  have hall := (JsText.digits_eq_some hdigits).1
  have hplus : '+' ∉ digits := fun hmem => absurd (List.all_eq_true.mp hall _ hmem) (by decide)
  have hne : digits ≠ [] := List.ne_nil_of_length_eq_add_one hfour
  have hradix : Hex.fromStrRadix (2 ^ 64 - 1) digits = some (payload.length + 4) := by
    rw [Hex.fromStrRadix_eq_digits hne hplus, hdigits]
  have hlen : (Utf8.encode (String.ofList digits)).length = 4 := by
    rw [Utf8.length_encode_ascii (JsText.ascii_of_fromStrRadix hradix), hfour]
  refine ⟨by rw [List.length_append, hlen, Nat.add_comm], fun rest => ?_⟩
  rw [PktLine.fieldLength, List.append_assoc, List.take_left' hlen, Utf8.decode_encode,
    Option.getD_some, String.toList_ofList, hradix, Option.getD_some]

/-! ## What is sent -/

/-- The arguments of the `push` that the handler sends, unless they do not serialize. -/
def sentPush (body : Bytes) : Option Bytes :=
  (encodePushArgs (PktLine.readUntilFlush body).2 (commandedUpdates body)).toOption

theorem handleReceivePack_of_sent {body args : Bytes} (h : sentPush body = some args)
    (contract : GitStorage) (ownerId : String) (delivery : Delivery) :
    handleReceivePack contract ownerId delivery body =
      sendPush contract ownerId args delivery fun answer =>
        some (statusLines ((commandedUpdates body).map RefUpdate.name) answer) := by
  rw [sentPush, Outcome.toOption_eq_some, commandedUpdates] at h
  rw [handleReceivePack, h, commandedUpdates]

theorem handleReceivePack_of_unsent {body : Bytes} (h : sentPush body = none)
    (contract : GitStorage) (ownerId : String) (delivery : Delivery) :
    handleReceivePack contract ownerId delivery body =
      { contract, accepted := [], report := none } := by
  have hnone : ∀ args, encodePushArgs (PktLine.readUntilFlush body).2
      ((PktLine.readUntilFlush body).1.filterMap parseCommand) ≠ .ok args := by
    intro args hargs
    rw [sentPush, commandedUpdates, hargs] at h
    cases h
  rw [handleReceivePack]
  split
  · next args hargs => exact absurd hargs (hnone args)
  · rfl

def ChangesNothing (body : Bytes) : Prop :=
  sentPush body = none ∧ ∀ contract ownerId delivery,
    (handleReceivePack contract ownerId delivery body).contract = contract ∧
      (handleReceivePack contract ownerId delivery body).accepted = []

theorem changesNothing_iff (body : Bytes) : ChangesNothing body ↔ sentPush body = none := by
  refine ⟨And.left, fun h => ⟨h, fun contract ownerId delivery => ?_⟩⟩
  rw [handleReceivePack_of_unsent h]
  exact ⟨rfl, rfl⟩

/-! ## What does not serialize -/

structure RefUpdateFits (u : RefUpdate) : Prop where
  name : (Utf8.encode u.name).length < 2 ^ 32
  oldSha : ∀ old ∈ u.oldSha, (Utf8.encode old).length < 2 ^ 32
  newSha : (Utf8.encode u.newSha).length < 2 ^ 32

structure ArgsFit (packData : Bytes) (refUpdates : List RefUpdate) : Prop where
  pack : packData.length < 2 ^ 32
  count : refUpdates.length < 2 ^ 32
  updates : ∀ u ∈ refUpdates, RefUpdateFits u

theorem refUpdate_isSome {u : RefUpdate} :
    (refUpdateCodec.serialize u).isSome = true ↔ RefUpdateFits u := by
  have hpair : (refUpdateCodec.serialize u).isSome = true ↔ _ :=
    Borsh.pair_isSome Borsh.string (Borsh.pair (Borsh.option Borsh.string) Borsh.string)
  rw [hpair, Borsh.pair_isSome, Borsh.option_isSome]
  simp only [Borsh.string_isSome]
  exact ⟨fun h => ⟨h.1, h.2.1, h.2.2⟩, fun h => ⟨h.name, h.oldSha, h.newSha⟩⟩

theorem argsFit_iff {packData : Bytes} {refUpdates : List RefUpdate} :
    ArgsFit packData refUpdates ↔ (Borsh.bytes.serialize packData).isSome = true ∧
      ((Borsh.vec refUpdateCodec).serialize refUpdates).isSome = true := by
  rw [Borsh.bytes_isSome, Borsh.vec_isSome]
  simp only [refUpdate_isSome]
  exact ⟨fun h => ⟨h.pack, h.count, h.updates⟩, fun h => ⟨h.1, h.2.1, h.2.2⟩⟩

theorem sentPush_eq_none_iff (body : Bytes) : sentPush body = none ↔
    ¬ ArgsFit (PktLine.readUntilFlush body).2 (commandedUpdates body) := by
  rw [argsFit_iff, sentPush, encodePushArgs]
  rcases Borsh.bytes.serialize (PktLine.readUntilFlush body).2 with _ | pack
  · simp [unwrapSerialized, Outcome.toOption]
  · rcases (Borsh.vec refUpdateCodec).serialize (commandedUpdates body) with _ | updates
    · simp [unwrapSerialized, Outcome.toOption]
    · simp [unwrapSerialized, Outcome.toOption]

/-- The fields of a command are parts of its line, which has no more bytes than four digits
count. -/
theorem refUpdateFits_of_parseCommand {line : Bytes} (hline : line.length < 2 ^ 16) {u : RefUpdate}
    (h : parseCommand line = some u) : RefUpdateFits u := by
  obtain ⟨⟨first, rest⟩, hfirst, h⟩ := Option.bind_eq_some_iff.mp h
  obtain ⟨⟨newSha, third⟩, hnew, h⟩ := Option.bind_eq_some_iff.mp h
  cases h
  have htrim : (trimEndLf (Utf8.decodeLossy line)).toList.length ≤ line.length := by
    rw [trimEndLf, String.toList_ofList]
    exact (List.rdropWhile_prefix _ _).length_le.trans (Utf8.length_decodeLossy line)
  have hbefore (s : String) : (beforeNul s).toList.length ≤ s.toList.length := by
    rw [beforeNul, String.toList_ofList]
    exact (List.takeWhile_prefix _).length_le
  have hfits (s : String) (hs : s.toList.length ≤ line.length) :
      (Utf8.encode s).length < 2 ^ 32 := by
    have hle := Utf8.length_encode_le s
    omega
  obtain ⟨hlenFirst, hlenRest⟩ := Text.length_splitOnce hfirst
  obtain ⟨hlenNew, hlenThird⟩ := Text.length_splitOnce hnew
  have hrest := hlenRest.trans htrim
  refine ⟨hfits _ (((hbefore third).trans hlenThird).trans hrest), ?_,
    hfits _ (hlenNew.trans hrest)⟩
  intro old hold
  split_ifs at hold with hzero
  · cases hold
  · cases hold
    exact hfits _ (((hbefore first).trans hlenFirst).trans htrim)

theorem argsFit_commanded_iff (body : Bytes) :
    ArgsFit (PktLine.readUntilFlush body).2 (commandedUpdates body) ↔
      (PktLine.readUntilFlush body).2.length < 2 ^ 32 ∧ (commandedUpdates body).length < 2 ^ 32 := by
  refine ⟨fun h => ⟨h.pack, h.count⟩, fun h => ⟨h.1, h.2, fun u hu => ?_⟩⟩
  obtain ⟨line, hline, hparse⟩ := List.mem_filterMap.mp hu
  exact refUpdateFits_of_parseCommand (PktLine.length_of_mem_readUntilFlush hline) hparse

/-- A malformed body changes nothing only where 2^32 bytes follow what was read of it, or as many
commands were read. -/
theorem malformed_changes_nothing_iff (body : Bytes) :
    (¬ WellFormed body → ChangesNothing body) ↔
      WellFormed body ∨ 2 ^ 32 ≤ (PktLine.readUntilFlush body).2.length ∨
        2 ^ 32 ≤ (commandedUpdates body).length := by
  rw [changesNothing_iff, sentPush_eq_none_iff, argsFit_commanded_iff, not_and_or, not_lt, not_lt,
    ← or_iff_not_imp_left]

/-! ## A body that is cut -/

theorem not_wellFormed_cutLine : ¬ WellFormed PktLine.cutLine := by
  intro h
  have hfive := PktLine.fieldLength_cutLine
  have hfour : PktLine.cutLine.length = 4 := rfl
  generalize PktLine.cutLine = body at h hfive hfour
  cases h with
  | flush pack =>
    rw [PktLine.fieldLength_flush] at hfive
    cases hfive
  | line hline _ _ =>
    obtain ⟨hlength, hfield⟩ := hline.length_eq
    rw [hfield] at hfive
    rw [List.length_append] at hfour
    omega

/-- The four bytes of a length field: a transaction is sent, and stores them as a pack. -/
theorem cutLine_stored : ¬ WellFormed PktLine.cutLine ∧ ¬ ChangesNothing PktLine.cutLine ∧
    (handleReceivePack (.new "owner") "owner" (.answered "") PktLine.cutLine).contract.packs.lookup
      0 = some PktLine.cutLine := by
  have hpack := congrArg Prod.snd PktLine.readUntilFlush_cutLine
  have hupdates : commandedUpdates PktLine.cutLine = [] := by
    rw [commandedUpdates, PktLine.readUntilFlush_cutLine, List.filterMap_nil]
  obtain ⟨args, hargs⟩ : ∃ args, encodePushArgs PktLine.cutLine [] = .ok args := ⟨_, rfl⟩
  obtain ⟨stored, hpush⟩ : ∃ stored, (GitStorage.new "owner").push "owner" PktLine.cutLine [] =
    .ok stored ∧ stored.packs.lookup 0 = some PktLine.cutLine := ⟨_, rfl, rfl⟩
  have hhandled : handleReceivePack (.new "owner") "owner" (.answered "") PktLine.cutLine = _ :=
    handleReceivePack_answered hpack hupdates hargs hpush.1
  refine ⟨not_wellFormed_cutLine, fun hnothing => ?_, by rw [hhandled]; exact hpush.2⟩
  have haccepted := (hnothing.2 (.new "owner") "owner" (.answered "")).2
  rw [hhandled] at haccepted
  cases haccepted

end NearGit.GitServer
