import NearGit.Packfile.Parse

/-! `packfile::build_with_bases`: the first pass picks a delta base for each object, the second
writes the entries behind each other. -/

namespace NearGit.Packfile
open Lib

def sortsBefore (a b : PackObject) : Bool :=
  ((compare a.objType b.objType).then (compare b.data.length a.data.length)).isLE

/-! ## Choosing the bases -/

structure BuildEntry where
  obj : PackObject
  refDelta : Option (String × Bytes)
  ofsDeltaIdx : Option Nat
  ofsDeltaData : Option Bytes
deriving DecidableEq, Repr

/-- `best_delta`, `best_base_sha` and `best_ofs_idx`. -/
structure BestDelta where
  delta : Option Bytes
  baseSha : Option String
  ofsIdx : Option Nat

/-- A candidate replaces the best delta so far when it saves a tenth of the data and is
shorter. -/
def BestDelta.offer (W : Usize) (best : BestDelta) (dataLen : Nat) (delta : Bytes)
    (baseSha : Option String) (ofsIdx : Option Nat) : Outcome BestDelta := do
  let product ← W.mul dataLen 9
  if delta.length < product / 10 then
    match best.delta with
    | none => return { delta := some delta, baseSha, ofsIdx }
    | some bestDelta =>
      if delta.length < bestDelta.length then return { delta := some delta, baseSha, ofsIdx }
      else return best
  else return best

def BestDelta.entry (best : BestDelta) (obj : PackObject) : Outcome BuildEntry :=
  match best.baseSha, best.ofsIdx with
  | some sha, _ =>
    match best.delta with
    | some delta =>
      .ok { obj, refDelta := some (sha, delta), ofsDeltaIdx := none, ofsDeltaData := none }
    | none => .panic (.message "called `Option::unwrap()` on a `None` value")
  | none, some idx =>
    .ok { obj, refDelta := none, ofsDeltaIdx := some idx, ofsDeltaData := best.delta }
  | none, none => .ok { obj, refDelta := none, ofsDeltaIdx := none, ofsDeltaData := none }

def offerBases (W : Usize) (C : Crates) (bases : List PackObject) (obj : PackObject) :
    Outcome BestDelta :=
  bases.foldlM (fun best base =>
    best.offer W obj.data.length (computeDelta base.data obj.data) (some (base.sha1 C)) none)
    { delta := none, baseSha := none, ofsIdx := none }

def offerPrevious (W : Usize) (entries : List BuildEntry) (last : Option Nat) (obj : PackObject)
    (best : BestDelta) : Outcome BestDelta :=
  match last with
  | none => .ok best
  | some prevEntryIdx =>
    match entries[prevEntryIdx]? with
    | none => .panic .indexOutOfBounds
    | some prev =>
      best.offer W obj.data.length (computeDelta prev.obj.data obj.data) none (some prevEntryIdx)

/-- The loop over the sorted objects, with `last_by_type` and the entries so far. -/
def planEntries (W : Usize) (C : Crates) (basesByType : String → List PackObject) :
    List PackObject → (lastByType : String → Option Nat) → List BuildEntry →
      Outcome (List BuildEntry)
  | [], _, entries => .ok entries
  | obj :: objs, lastByType, entries => do
    let best ← offerBases W C (basesByType obj.objType) obj
    let best ← offerPrevious W entries (lastByType obj.objType) obj best
    let entry ← best.entry obj
    planEntries W C basesByType objs
      (Function.update lastByType obj.objType (some entries.length)) (entries ++ [entry])

/-! ## Writing the pack -/

def encodePackHeader (typeBits size : Nat) : Bytes :=
  let firstByte := UInt8.ofNat typeBits <<< 4 ||| UInt8.ofNat (size &&& 0x0f)
  let remaining := size >>> 4
  if 0 < remaining then (firstByte ||| 0x80) :: Varint.encode remaining else [firstByte]

def encodeOfsOffset (offset : Nat) : Bytes := Varint.ofsEncode offset

/-- `u8::from_str_radix(&base_sha[i*2..i*2+2], 16).unwrap()`. -/
def shaByte (baseSha : String) (i : Nat) : Outcome UInt8 :=
  if baseSha.length < i * 2 + 2 then .panic .indexOutOfBounds
  else
    match Hex.fromStrRadix 255 ((baseSha.toList.drop (i * 2)).take 2) with
    | some n => .ok (UInt8.ofNat n)
    | none => .panic (.message "called `Result::unwrap()` on an `Err` value: ParseIntError")

def decodeSha (baseSha : String) : Outcome Bytes := (List.range 20).mapM (shaByte baseSha)

def encodeEntry (C : Crates) (objStart : Nat) (startPositions : List Nat) (entry : BuildEntry) :
    Outcome Bytes :=
  match entry.refDelta, entry.ofsDeltaIdx, entry.ofsDeltaData with
  | some (baseSha, delta), _, _ => do
    let shaBytes ← decodeSha baseSha
    return encodePackHeader 7 delta.length ++ (shaBytes ++ C.deflate delta)
  | none, some baseIdx, some delta =>
    match startPositions[baseIdx]? with
    | none => .panic .indexOutOfBounds
    | some basePos =>
      .ok (encodePackHeader 6 delta.length ++
        (encodeOfsOffset (objStart - basePos) ++ C.deflate delta))
  | _, _, _ => do
    let typeBits ← typeToBits entry.obj.objType
    return encodePackHeader typeBits entry.obj.data.length ++ C.deflate entry.obj.data

/-- The second pass; `out` holds what has been written. -/
def writeEntries (C : Crates) : List BuildEntry → (startPositions : List Nat) → (out : Bytes) →
    Outcome Bytes
  | [], _, out => .ok out
  | entry :: entries, startPositions, out => do
    let objStart := out.length
    let startPositions := startPositions ++ [objStart]
    let bytes ← encodeEntry C objStart startPositions entry
    writeEntries C entries startPositions (out ++ bytes)

/-- `build_with_bases`. The objects themselves are sorted here, not their indices. -/
def buildWithBases (W : Usize) (C : Crates) (objects baseObjects : List PackObject) :
    Outcome Bytes := do
  let basesByType := group PackObject.objType baseObjects
  let entries ← planEntries W C basesByType (objects.mergeSort sortsBefore) (fun _ => none) []
  let out ← writeEntries C entries [] (magic ++ be32 2 ++ be32 entries.length)
  return out ++ (C.sha1 out).toList

def build (W : Usize) (C : Crates) (objects : List PackObject) : Outcome Bytes :=
  buildWithBases W C objects []

/-! ## No error to return -/

theorem BestDelta.entry_neverErr (best : BestDelta) (obj : PackObject) :
    (best.entry obj).NeverErr := by
  unfold BestDelta.entry
  split
  · split
    · exact Outcome.neverErr_ok _
    · exact Outcome.neverErr_panic _
  · exact Outcome.neverErr_ok _
  · exact Outcome.neverErr_ok _

theorem BestDelta.offer_neverErr (W : Usize) (best : BestDelta) (dataLen : Nat) (delta : Bytes)
    (baseSha : Option String) (ofsIdx : Option Nat) :
    (best.offer W dataLen delta baseSha ofsIdx).NeverErr := by
  refine Outcome.NeverErr.bind ?_ fun product => ?_
  · rw [Usize.mul]
    split_ifs
    · exact Outcome.neverErr_ok _
    · exact Outcome.neverErr_panic _
  · split
    · split
      · exact Outcome.neverErr_ok _
      · split
        · exact Outcome.neverErr_ok _
        · exact Outcome.neverErr_ok _
    · exact Outcome.neverErr_ok _

theorem offerBases_neverErr (W : Usize) (C : Crates) (bases : List PackObject)
    (obj : PackObject) : (offerBases W C bases obj).NeverErr :=
  Outcome.NeverErr.foldlM (fun best _ => best.offer_neverErr W _ _ _ _) _ _

theorem offerPrevious_neverErr (W : Usize) (entries : List BuildEntry) (last : Option Nat)
    (obj : PackObject) (best : BestDelta) : (offerPrevious W entries last obj best).NeverErr := by
  unfold offerPrevious
  split
  · exact Outcome.neverErr_ok _
  · split
    · exact Outcome.neverErr_panic _
    · exact best.offer_neverErr W _ _ _ _

theorem planEntries_neverErr (W : Usize) (C : Crates) (basesByType : String → List PackObject)
    (objs : List PackObject) (lastByType : String → Option Nat) (entries : List BuildEntry) :
    (planEntries W C basesByType objs lastByType entries).NeverErr := by
  induction objs generalizing lastByType entries with
  | nil => exact Outcome.neverErr_ok _
  | cons obj objs ih =>
    exact (offerBases_neverErr _ _ _ _).bind fun best =>
      (offerPrevious_neverErr _ _ _ _ _).bind fun best =>
        (best.entry_neverErr obj).bind fun entry => ih _ _

theorem decodeSha_neverErr (baseSha : String) : (decodeSha baseSha).NeverErr := by
  refine Outcome.NeverErr.mapM (fun i => ?_) _
  unfold shaByte
  split_ifs
  · exact Outcome.neverErr_panic _
  · split
    · exact Outcome.neverErr_ok _
    · exact Outcome.neverErr_panic _

theorem encodeEntry_neverErr (C : Crates) (objStart : Nat) (startPositions : List Nat)
    (entry : BuildEntry) : (encodeEntry C objStart startPositions entry).NeverErr := by
  unfold encodeEntry
  split
  · exact (decodeSha_neverErr _).bind fun _ => Outcome.neverErr_ok _
  · split
    · exact Outcome.neverErr_panic _
    · exact Outcome.neverErr_ok _
  · exact (typeToBits_neverErr _).bind fun _ => Outcome.neverErr_ok _

theorem writeEntries_neverErr (C : Crates) (entries : List BuildEntry)
    (startPositions : List Nat) (out : Bytes) :
    (writeEntries C entries startPositions out).NeverErr := by
  induction entries generalizing startPositions out with
  | nil => exact Outcome.neverErr_ok _
  | cons entry entries ih => exact (encodeEntry_neverErr _ _ _ _).bind fun bytes => ih _ _

theorem buildWithBases_neverErr (W : Usize) (C : Crates) (objects baseObjects : List PackObject) :
    (buildWithBases W C objects baseObjects).NeverErr :=
  (planEntries_neverErr _ _ _ _ _ _).bind fun _ =>
    (writeEntries_neverErr _ _ _ _).bind fun _ => Outcome.neverErr_ok _

end NearGit.Packfile
