import NearGit.Contract.Delivery
import NearGit.Lib.JsText
import NearGit.ServiceWorker.PushArgs
import NearGit.ServiceWorker.ReceivePack

/-! `handleReceivePack` of the service worker from the bytes of the request to the status lines of
the response. -/

namespace NearGit.ServiceWorker
open Lib NearGit.Packfile NearGit.Contract

/-! ## The commands -/

/-- The loop of `readPktLines` from `pos` on. A length that is `NaN` makes one empty line, ends the
loop, and leaves all of `data` as the rest. -/
def readPktLinesFrom (data : Bytes) (pos : ℕ) : List Bytes × Bytes :=
  if pos + 4 ≤ data.length then
    let lenHex := JsText.textDecode (JsText.slice data pos (pos + 4))
    match JsText.parseInt16 lenHex with
    | none => ([[]], data)
    | some len =>
      if len = 0 then ([], data.drop (pos + 4))
      else if _hlen : len < 4 then ([], data.drop pos)
      else
        let next := pos + len.toNat
        let (lines, rest) := readPktLinesFrom data next
        (JsText.slice data (pos + 4) next :: lines, rest)
  else ([], data.drop pos)
termination_by data.length - pos
decreasing_by omega

/-- `readPktLines`. An array ends at `2 ^ 32 - 1` elements; to push one more throws. -/
def readPktLines (data : Bytes) : Option (List Bytes × Bytes) :=
  let read := readPktLinesFrom data 0
  if read.1.length < 2 ^ 32 then some read else none

def zeroSha : String := String.ofList (List.replicate 40 '0')

def nul : Char := Char.ofNat 0

/-- The update that a command line stands for; a line of fewer than three parts is passed over. -/
def parseCommand (line : Bytes) : Option RefUpdate :=
  let text := JsText.trim (JsText.textDecode line)
  match JsText.split text ' ' with
  | first :: newSha :: third :: others =>
    let oldSha := (JsText.split first nul).getLastD ""
    let refName := (JsText.split (JsText.join (third :: others) ' ') nul).headD ""
    some {
      name := refName
      oldSha := if oldSha = zeroSha then none else some oldSha
      newSha }
  | _ => none

theorem parseCommand_of_text {line : Bytes} {oldSha newSha third : List Char}
    (htext : JsText.trim (JsText.textDecode line) = String.ofList
      (oldSha ++ ' ' :: (newSha ++ ' ' :: third)))
    (hold : ' ' ∉ oldSha ∧ nul ∉ oldSha) (hnew : ' ' ∉ newSha) :
    parseCommand line = some {
      name := (JsText.split (String.ofList third) nul).headD ""
      oldSha := if String.ofList oldSha = zeroSha then none else some (String.ofList oldSha)
      newSha := String.ofList newSha } := by
  have hjoin := JsText.join_split (String.ofList third) ' '
  obtain ⟨part, others, hthird⟩ := List.exists_cons_of_ne_nil
    (JsText.split_ne_nil (String.ofList third) ' ')
  rw [hthird] at hjoin
  rw [parseCommand, htext]
  simp only [JsText.split_append hold.1, JsText.split_append hnew, hthird, hjoin,
    JsText.split_of_notMem hold.2]
  rfl

theorem parseCommand_of_nul {line : Bytes} {oldSha newSha name capabilities : List Char}
    (htext : JsText.trim (JsText.textDecode line) = String.ofList
      (oldSha ++ ' ' :: (newSha ++ ' ' :: (name ++ nul :: capabilities))))
    (hold : ' ' ∉ oldSha ∧ nul ∉ oldSha) (hnew : ' ' ∉ newSha) (hname : nul ∉ name) :
    parseCommand line = some {
      name := String.ofList name
      oldSha := if String.ofList oldSha = zeroSha then none else some (String.ofList oldSha)
      newSha := String.ofList newSha } := by
  rw [parseCommand_of_text htext hold hnew, JsText.split_append hname, List.headD_cons]

def parseRequest (body : Bytes) : Option (List RefUpdate × Bytes) := do
  let (lines, rest) ← readPktLines body
  return (lines.filterMap parseCommand, rest)

def commandedUpdates (body : Bytes) : List RefUpdate := ((parseRequest body).map Prod.fst).getD []

theorem commandedUpdates_eq {body rest : Bytes} {updates : List RefUpdate}
    (h : parseRequest body = some (updates, rest)) : commandedUpdates body = updates := by
  rw [commandedUpdates, h]
  rfl

/-! ## Reading one's writes -/

inductive WaitEnd
  | caughtUp
  | gaveUp

/-- What every object has from `Object.prototype`, and `in` finds. -/
def inheritedNames : List String :=
  ["constructor", "hasOwnProperty", "isPrototypeOf", "propertyIsEnumerable", "toLocaleString",
    "toString", "valueOf", "__proto__", "__defineGetter__", "__defineSetter__",
    "__lookupGetter__", "__lookupSetter__"]

def caughtUp (refUpdates : List RefUpdate) (refs : List (String × String)) : Bool :=
  refUpdates.all fun u =>
    let entry := refs.reverse.find? fun e => e.1 = u.name
    if u.newSha = zeroSha then entry.isNone && u.name ∉ inheritedNames
    else entry.map Prod.snd = some u.newSha

/-- `polls` are the answers to `get_refs` up to the deadline, none where a call has failed. -/
def waitForRefsToCatchUp (refUpdates : List RefUpdate) :
    List (Option (List (String × String))) → WaitEnd
  | [] => .gaveUp
  | none :: polls => waitForRefsToCatchUp refUpdates polls
  | some refs :: polls =>
    if caughtUp refUpdates refs then .caughtUp else waitForRefsToCatchUp refUpdates polls

/-! ## The handler -/

/-- What the handler gets from the RPC node: a view call that throws has no answer. -/
structure Rpc where
  packCount : Option ℕ
  existingPacks : Option (List Bytes)
  delivery : Delivery
  polls : List (Option (List (String × String)))

/-- The packs are asked for only if there are some. -/
def Rpc.views (rpc : Rpc) : Option Views := do
  let packCount ← rpc.packCount
  if 0 < packCount then
    let existingPacks ← rpc.existingPacks
    return { packCount, existingPacks }
  else return { packCount, existingPacks := [] }

def packToPush (C : Crates) (rpc : Rpc) (rest : Bytes) : Option Bytes := do
  let newObjects ← (incomingObjects C rest).toOption
  let views ← rpc.views
  let packData ← (packFor C views newObjects).toOption
  -- the memory of the WASM module, and a string of JavaScript, end long before
  if packData.length < 2 ^ 32 then return packData else none

def pushInput (C : Crates) (rpc : Rpc) (refUpdates : List RefUpdate) (rest : Bytes) :
    Option Bytes := do
  let packData ← packToPush C rpc rest
  pushArgsBytes { packData := uint8ToBase64 packData, refUpdates }

def okLines (refUpdates : List RefUpdate) : List String :=
  "unpack ok" :: refUpdates.map fun u => s!"ok {u.name}"

def ngLines (refUpdates : List RefUpdate) (error : String) : List String :=
  s!"unpack {error}" :: refUpdates.map fun u => s!"ng {u.name} {error}"

/-- The end of the handler; whether the wait was in vain makes no difference. -/
def okReport (rpc : Rpc) (refUpdates : List RefUpdate) : List String :=
  if refUpdates ≠ [] then
    match waitForRefsToCatchUp refUpdates rpc.polls with
    | .caughtUp | .gaveUp => okLines refUpdates
  else okLines refUpdates

/-- The handler, for the contract as it is when the transaction is executed. An exception becomes
a response of status 500, which has no report. -/
def handleReceivePackBody (C : Crates) (rpc : Rpc) (contract : GitStorage) (accountId : String)
    (body : Bytes) : Handled :=
  match parseRequest body with
  | none => { contract, accepted := [], report := none }
  | some (refUpdates, rest) =>
    if rest ≠ [] then
      match pushInput C rpc refUpdates rest with
      | none => { contract, accepted := [], report := none }
      | some args =>
        sendPush contract accountId args rpc.delivery fun
          | .success => some (okReport rpc refUpdates)
          | .failure error | .error error => some (ngLines refUpdates error)
          | .threw => none
    else { contract, accepted := [], report := some (okReport rpc refUpdates) }

/-! ## Sizes -/

theorem length_of_mem_readPktLinesFrom (data : Bytes) (pos : ℕ) :
    ∀ line ∈ (readPktLinesFrom data pos).1, line.length < 2 ^ 16 := by
  fun_induction readPktLinesFrom data pos with
  | case1 pos hpos lenHex hnan => simp
  | case2 => simp
  | case3 => simp
  | case4 pos hpos lenHex len hlen hzero hlarge next lines rest hrest ih =>
    have hchars : lenHex.toList.length ≤ 4 := by
      refine (JsText.length_textDecode_le _).trans ?_
      simp only [JsText.slice, List.length_drop, List.length_take]
      omega
    have hlt : len < 16 ^ 4 := JsText.parseInt16_lt hlen hchars
    intro line hline
    rcases List.mem_cons.mp hline with rfl | hline
    · simp only [JsText.slice, List.length_drop, List.length_take, next]
      omega
    · rw [hrest] at ih
      exact ih line hline
  | case5 => simp

structure ShortUpdate (u : RefUpdate) : Prop where
  name : u.name.toList.length < 2 ^ 16
  oldSha : ∀ old, u.oldSha = some old → old.toList.length < 2 ^ 16
  newSha : u.newSha.toList.length < 2 ^ 16

theorem length_getLastD_split (s : String) (c : Char) :
    ((JsText.split s c).getLastD "").toList.length ≤ s.toList.length := by
  rcases hlast : (JsText.split s c).getLast? with _ | p
  · simp [List.getLastD_eq_getLast?, hlast]
  · rw [List.getLastD_eq_getLast?, hlast]
    exact JsText.length_le_of_mem_split (List.mem_of_getLast? hlast)

theorem length_headD_split (s : String) (c : Char) :
    ((JsText.split s c).headD "").toList.length ≤ s.toList.length := by
  rcases hsplit : JsText.split s c with _ | ⟨p, ps⟩
  · simp
  · exact JsText.length_le_of_mem_split (hsplit ▸ List.mem_cons_self)

theorem shortUpdate_of_parseCommand {line : Bytes} {u : RefUpdate}
    (h : parseCommand line = some u) (hline : line.length < 2 ^ 16) : ShortUpdate u := by
  set text := JsText.trim (JsText.textDecode line) with htext
  have hlength : text.toList.length < 2 ^ 16 :=
    calc text.toList.length ≤ (JsText.textDecode line).toList.length := JsText.length_trim_le _
      _ ≤ line.length := JsText.length_textDecode_le line
      _ < 2 ^ 16 := hline
  simp only [parseCommand, ← htext] at h
  split at h
  · next first newSha third others hparts =>
    cases h
    have hpiece {p : String} (hp : p ∈ [first, newSha]) : p.toList.length < 2 ^ 16 := by
      have hmem : p ∈ JsText.split text ' ' := hparts ▸ List.mem_append_left (third :: others) hp
      exact (JsText.length_le_of_mem_split hmem).trans_lt hlength
    refine ⟨?_, ?_, hpiece (by simp)⟩
    · have hsum := JsText.pieceLengths_split text ' '
      have hjoin := JsText.length_join (List.cons_ne_nil third others) ' '
      have hname := length_headD_split (JsText.join (third :: others) ' ') nul
      rw [hparts, JsText.pieceLengths, List.map_cons, List.map_cons, List.sum_cons,
        List.sum_cons] at hsum
      rw [JsText.pieceLengths] at hjoin
      dsimp only
      omega
    · intro old hold
      dsimp only at hold
      split_ifs at hold
      cases hold
      exact (length_getLastD_split first nul).trans_lt (hpiece (by simp))
  · cases h

theorem parseRequest_sizes {body rest : Bytes} {updates : List RefUpdate}
    (h : parseRequest body = some (updates, rest)) :
    updates.length < 2 ^ 32 ∧ ∀ u ∈ updates, ShortUpdate u := by
  obtain ⟨⟨lines, rest⟩, hlines, h⟩ := Option.bind_eq_some_iff.mp h
  cases h
  simp only [readPktLines] at hlines
  split_ifs at hlines with hcount
  have hread : readPktLinesFrom body 0 = (lines, rest) := Option.some.inj hlines
  have hsmall := length_of_mem_readPktLinesFrom body 0
  rw [hread] at hcount hsmall
  refine ⟨(List.length_filterMap_le ..).trans_lt hcount, fun u hu => ?_⟩
  obtain ⟨line, hline, hparse⟩ := List.mem_filterMap.mp hu
  exact shortUpdate_of_parseCommand hparse (hsmall line hline)

/-- What the arguments say of the update: an empty `old_sha` is falsy. -/
def carried (u : RefUpdate) : RefUpdate := { u with oldSha := u.oldSha.filter (· ≠ "") }

theorem carried_eq_self {u : RefUpdate} : carried u = u ↔ u.oldSha ≠ some "" := by
  rcases u with ⟨name, _ | old, newSha⟩
  · simp [carried]
  · by_cases hold : old = "" <;> simp [carried, Option.filter, hold]

theorem carried_oldSha_ne (u : RefUpdate) : (carried u).oldSha ≠ some "" := by
  intro h
  exact absurd (Option.filter_eq_some_iff.mp h).2 (by simp)

theorem refUpdateParts_carried (u : RefUpdate) : refUpdateParts (carried u) = refUpdateParts u := by
  rcases u with ⟨name, _ | old, newSha⟩
  · rfl
  · by_cases hold : old = "" <;> simp [carried, refUpdateParts, Option.filter, hold]

theorem fitsBorsh_carried {u : RefUpdate} (h : ShortUpdate u) : FitsBorsh (carried u) := by
  have hfits {s : String} (hs : s.toList.length < 2 ^ 16) : (Utf8.encode s).length < 2 ^ 32 := by
    have := Utf8.length_encode_le s
    omega
  refine ⟨hfits h.name, ?_, hfits h.newSha⟩
  intro old hold
  obtain ⟨hold, hne⟩ := Option.filter_eq_some_iff.mp hold
  exact ⟨by simpa using hne, hfits (h.oldSha old hold)⟩

theorem decode_pushArgsBytes {pack input : Bytes} {updates : List RefUpdate}
    (hpack : pack.length < 2 ^ 32) (hcount : updates.length < 2 ^ 32)
    (hshort : ∀ u ∈ updates, ShortUpdate u)
    (h : pushArgsBytes { packData := uint8ToBase64 pack, refUpdates := updates } = some input) :
    decodePushArgs input = some (pack, updates.map carried) := by
  have hcarried : ∀ u ∈ updates.map carried, FitsBorsh u := by
    intro u' hu'
    obtain ⟨u, hu, rfl⟩ := List.mem_map.mp hu'
    exact fitsBorsh_carried (hshort u hu)
  have hsame : pushArgsBytes
      { packData := uint8ToBase64 pack, refUpdates := updates.map carried } = some input := by
    rw [pushArgsBytes_eq] at h ⊢
    simpa only [List.length_map, List.flatMap_map, refUpdateParts_carried] using h
  have hcount' : (updates.map carried).length < 2 ^ 32 := by simpa using hcount
  exact Borsh.Codec.tryFromSlice_eq _ (serialize_pushArgs hpack hcount' hcarried hsame)

theorem decode_pushInput {C : Crates} {rpc : Rpc} {body rest input : Bytes}
    {updates : List RefUpdate} (hrequest : parseRequest body = some (updates, rest))
    (h : pushInput C rpc updates rest = some input) :
    ∃ pack, decodePushArgs input = some (pack, updates.map carried) := by
  obtain ⟨hcount, hshort⟩ := parseRequest_sizes hrequest
  obtain ⟨pack, hpack, hargs⟩ := Option.bind_eq_some_iff.mp h
  have hlength : pack.length < 2 ^ 32 := by
    simp only [packToPush, Option.bind_eq_bind, Option.bind_eq_some_iff] at hpack
    obtain ⟨newObjects, -, views, -, packData, -, hpack⟩ := hpack
    split_ifs at hpack with hlt
    cases hpack
    exact hlt
  exact ⟨pack, decode_pushArgsBytes hlength hcount hshort hargs⟩

end NearGit.ServiceWorker
