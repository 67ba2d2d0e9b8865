import NearGit.Lib.Reader
import NearGit.WasmLib.Builders

/-! The reader of a Borsh `Vec<(String, Option<GitObject>)>` in the WASM module. It goes by
positions, and a `usize` has 32 bits. -/

namespace NearGit.WasmLib
open Lib Reader

/-! ## The reader -/

def endOfData : String := "unexpected end of borsh data"

def borshReadU8 (data : Bytes) (pos : ℕ) : Outcome (UInt8 × ℕ) :=
  match data[pos]? with
  | some v => .ok (v, pos + 1)
  | none => .err endOfData

def borshReadU32 (data : Bytes) (pos : ℕ) : Outcome (ℕ × ℕ) :=
  if 2 ^ 32 ≤ pos + 4 then .panic .addOverflow
  else
    match Borsh.deserializeLen (data.drop pos) with
    | some (v, _) => .ok (v, pos + 4)
    | none => .err endOfData

def borshReadBytes (data : Bytes) (pos : ℕ) : Outcome (Bytes × ℕ) := do
  let (len, pos) ← borshReadU32 data pos
  if 2 ^ 32 ≤ pos + len then .panic .addOverflow
  else if data.length < pos + len then .err endOfData
  else return ((data.drop pos).take len, pos + len)

structure StoredObject where
  sha : String
  object : Option (String × Bytes)
deriving DecidableEq, Repr

def StoredObject.json (obj : StoredObject) : Json :=
  .array [.string obj.sha, match obj.object with
    | some (objType, objData) => objectJson { objType, data := objData }
    | none => .null]

section Decode
-- How the error of `String::from_utf8` is displayed.
variable (utf8Error : Bytes → String)

def borshReadString (data : Bytes) (pos : ℕ) : Outcome (String × ℕ) := do
  let (bytes, pos) ← borshReadBytes data pos
  match Utf8.decode bytes with
  | some s => return (s, pos)
  | none => .err (utf8Error bytes)

/-- One round of the loop. -/
def borshReadObject (data : Bytes) (pos : ℕ) : Outcome (StoredObject × ℕ) := do
  let (sha, pos) ← borshReadString utf8Error data pos
  let (optionTag, pos) ← borshReadU8 data pos
  if optionTag = 1 then
    let (objType, pos) ← borshReadString utf8Error data pos
    let (objData, pos) ← borshReadBytes data pos
    return ({ sha, object := some (objType, objData) }, pos)
  else return ({ sha, object := none }, pos)

/-- `borsh_decode_objects`, up to the text that is made of the value. -/
def borshDecodeObjects (data : Bytes) : Outcome Json := do
  let (len, pos) ← borshReadU32 data 0
  let (result, _) ← many (borshReadObject utf8Error data) len pos
  return .array (result.map StoredObject.json)

end Decode

/-! ## What it reads -/

def LengthThen : Layout Bytes := fun bs part => bs.length < 2 ^ 32 ∧
  part = Borsh.le32 bs.length ++ bs

def TextLayout : Layout String := fun s part => LengthThen (Utf8.encode s) part

/-- Every tag but one stands for no object. -/
inductive ObjectLayout : Layout StoredObject
  | none {sha : String} {part : Bytes} {tag : UInt8} (hsha : TextLayout sha part) (htag : tag ≠ 1) :
    ObjectLayout { sha, object := none } (part ++ [tag])
  | some {sha objType : String} {objData part part' part'' : Bytes} (hsha : TextLayout sha part)
      (htype : TextLayout objType part') (hdata : LengthThen objData part'') :
    ObjectLayout { sha, object := some (objType, objData) } (part ++ 1 :: (part' ++ part''))

inductive BeforeLength : Bytes → Prop
  | sha : BeforeLength []
  | objType {sha : String} {part : Bytes} (hsha : TextLayout sha part) : BeforeLength (part ++ [1])
  | objData {sha objType : String} {part part' : Bytes} (hsha : TextLayout sha part)
      (htype : TextLayout objType part') : BeforeLength (part ++ 1 :: part')

section Specs
variable (utf8Error : Bytes → String) {data : Bytes}

theorem reads_u8 (data : Bytes) :
    Reads data (borshReadU8 data) (fun v part => part = [v]) fun _ => False := by
  constructor
  · intro pos v pos'
    unfold borshReadU8
    constructor
    · intro h
      split at h
      · rename_i w hw
        cases h
        obtain ⟨hpos, hget⟩ := List.getElem?_eq_some_iff.mp hw
        refine ⟨[v], rfl, ?_, rfl⟩
        rw [List.drop_eq_getElem_cons hpos, hget]
        rfl
      · cases h
    · rintro ⟨part, rfl, hdrop, rfl⟩
      have hget : data[pos]? = some v := by
        rw [← List.head?_drop, hdrop]
        rfl
      rw [hget]
      rfl
  · intro pos why _
    apply iff_of_false
    · unfold borshReadU8
      intro h
      split at h <;> cases h
    · exact fun ⟨_, _, hbefore, _⟩ => hbefore

theorem reads_u32 (hdata : data.length < 2 ^ 31) :
    Reads data (borshReadU32 data) (fun n part => n < 2 ^ 32 ∧ part = Borsh.le32 n)
      fun _ => False := by
  constructor
  · intro pos n pos'
    unfold borshReadU32
    constructor
    · intro h
      split_ifs at h
      split at h
      · rename_i w rest hw
        cases h
        obtain ⟨hn, hdrop⟩ := Borsh.deserializeLen_eq_some.mp hw
        exact ⟨_, ⟨hn, rfl⟩, spans_of_drop hdrop⟩
      · cases h
    · rintro ⟨part, ⟨hn, rfl⟩, hspans⟩
      have hfour : (Borsh.le32 n).length = 4 := rfl
      have hend : pos' = pos + 4 := hspans.2
      have hlength := congrArg List.length hspans.1
      rw [List.length_append, List.length_drop, hfour] at hlength
      rw [if_neg (by omega), Borsh.deserializeLen_eq_some.mpr ⟨hn, hspans.1⟩, hend]
  · intro pos why hpos
    apply iff_of_false
    · unfold borshReadU32
      intro h
      rw [if_neg (by omega)] at h
      split at h <;> cases h
    · exact fun ⟨_, _, hbefore, _⟩ => hbefore

theorem reads_bytes (hdata : data.length < 2 ^ 31) :
    Reads data (borshReadBytes data) LengthThen (· = []) := by
  constructor
  · intro pos bs pos''
    rw [borshReadBytes, Outcome.bind_eq_ok]
    constructor
    · rintro ⟨⟨len, pos'⟩, hlen, h⟩
      obtain ⟨_, ⟨hlt, rfl⟩, hspans⟩ := (reads_u32 hdata).ok_iff.mp hlen
      simp only [Outcome.pure_eq] at h
      split_ifs at h with hover hshort
      cases h
      have hlength : ((data.drop pos').take len).length = len := by
        rw [List.length_take, List.length_drop]
        omega
      refine ⟨_, ⟨by rw [hlength]; exact hlt, rfl⟩, ?_⟩
      rw [hlength]
      refine hspans.append ⟨?_, by rw [hlength]⟩
      rw [← List.drop_drop, List.take_append_drop]
    · rintro ⟨_, ⟨hlt, rfl⟩, hspans⟩
      have hle : pos'' ≤ data.length := hspans.end_le (Nat.succ_pos _)
      obtain ⟨pos', hlen, hdrop, rfl⟩ := spans_append.mp hspans
      refine ⟨(bs.length, pos'), (reads_u32 hdata).ok_iff.mpr ⟨_, ⟨hlt, rfl⟩, hlen⟩, ?_⟩
      dsimp only
      rw [if_neg (by omega), if_neg (by omega), hdrop, List.take_left]
      rfl
  · intro pos why hpos
    rw [borshReadBytes, Outcome.bind_eq_panic, (reads_u32 hdata).panic_iff hpos]
    constructor
    · rintro (⟨_, _, hnone, _⟩ | ⟨⟨len, pos'⟩, hlen, h⟩)
      · exact hnone.elim
      · obtain ⟨_, ⟨hlt, rfl⟩, hspans⟩ := (reads_u32 hdata).ok_iff.mp hlen
        simp only [Outcome.pure_eq] at h
        split_ifs at h with hover hshort
        cases h
        refine ⟨rfl, [], rfl, len, data.drop pos', hlt, hspans.1, ?_⟩
        have hend : pos' = pos + 4 := hspans.2
        rw [List.length_nil]
        omega
    · rintro ⟨rfl, _, rfl, len, rest, hlt, hdrop, hover⟩
      refine .inr ⟨(len, pos + 4), ?_, if_pos hover⟩
      exact (reads_u32 hdata).ok_iff.mpr ⟨_, ⟨hlt, rfl⟩, spans_of_drop hdrop⟩

theorem reads_string (hdata : data.length < 2 ^ 31) :
    Reads data (borshReadString utf8Error data) TextLayout (· = []) := by
  have hdecode (bytes : Bytes) : Reads data (fun pos => match Utf8.decode bytes with
      | some s => .ok (s, pos)
      | none => .err (utf8Error bytes)) (fun s part => Utf8.encode s = bytes ∧ part = [])
      fun _ => False := by
    rcases htext : Utf8.decode bytes with _ | s
    · constructor
      · intro pos s pos'
        apply iff_of_false
        · exact fun h => by cases h
        · rintro ⟨_, ⟨rfl, rfl⟩, -⟩
          rw [Utf8.decode_encode] at htext
          cases htext
      · intro pos why _
        apply iff_of_false
        · exact fun h => by cases h
        · exact fun ⟨_, _, hnone, _⟩ => hnone
    · refine (Reads.pure data s).of_iff (fun t part => ?_) fun _ => Iff.rfl
      apply and_congr_left'
      constructor
      · rintro rfl
        exact Utf8.encode_of_decode htext
      · rintro rfl
        rw [Utf8.decode_encode] at htext
        exact Option.some.inj htext
  refine ((reads_bytes hdata).bind hdecode).of_iff (fun s part => ?_) fun part => ?_
  · constructor
    · rintro ⟨_, front, _, hfront, ⟨rfl, rfl⟩, rfl⟩
      rw [List.append_nil]
      exact hfront
    · intro h
      exact ⟨_, part, [], h, ⟨rfl, rfl⟩, (List.append_nil _).symm⟩
  · apply or_iff_left
    rintro ⟨_, _, _, _, hnone, _⟩
    exact hnone

theorem reads_object (hdata : data.length < 2 ^ 31) :
    Reads data (borshReadObject utf8Error data) ObjectLayout BeforeLength := by
  have hstring := reads_string utf8Error hdata
  have hfound (sha : String) := hstring.bind fun objType =>
    (reads_bytes hdata).bind fun objData =>
      Reads.pure data ({ sha, object := some (objType, objData) } : StoredObject)
  have hrest (sha : String) := (reads_u8 data).bind fun tag =>
    (hfound sha).ite (tag = 1) (Reads.pure data ({ sha, object := none } : StoredObject))
  refine (hstring.bind hrest).of_iff (fun obj part => ?_) fun part => ?_
  · constructor
    · rintro ⟨sha, front, _, hsha, ⟨tag, _, back, rfl, h, rfl⟩, rfl⟩
      split_ifs at h with htag
      · obtain ⟨objType, _, _, htype, ⟨objData, _, _, hdata, ⟨rfl, rfl⟩, rfl⟩, rfl⟩ := h
        rw [htag, List.singleton_append, List.append_nil]
        exact .some hsha htype hdata
      · obtain ⟨rfl, rfl⟩ := h
        exact .none hsha htag
    · intro h
      cases h with
      | none hsha htag =>
        refine ⟨_, _, _, hsha, ⟨_, _, [], rfl, (if_neg htag).mpr ?_, rfl⟩, rfl⟩
        exact ⟨rfl, rfl⟩
      | some hsha htype hdata =>
        refine ⟨_, _, _, hsha, ⟨1, _, _, rfl, (if_pos rfl).mpr ?_, rfl⟩, rfl⟩
        exact ⟨_, _, _, htype, ⟨_, _, [], hdata, ⟨rfl, rfl⟩, (List.append_nil _).symm⟩, rfl⟩
  · constructor
    · rintro (rfl | ⟨sha, front, _, hsha, hnone | ⟨tag, _, back, rfl, h, rfl⟩, rfl⟩)
      · exact .sha
      · exact hnone.elim
      · split_ifs at h with htag
        rw [htag]
        rcases h with rfl | ⟨objType, _, _, htype, rfl | ⟨_, _, _, _, hnone, _⟩, rfl⟩
        · exact .objType hsha
        · rw [List.append_nil]
          exact .objData hsha htype
        · exact hnone.elim
    · intro h
      cases h with
      | sha => exact .inl rfl
      | objType hsha =>
        refine .inr ⟨_, _, _, hsha, .inr ⟨1, _, [], rfl, (if_pos rfl).mpr ?_, rfl⟩, rfl⟩
        exact .inl rfl
      | objData hsha htype =>
        refine .inr ⟨_, _, _, hsha, .inr ⟨1, _, _, rfl, (if_pos rfl).mpr ?_, rfl⟩, rfl⟩
        exact .inr ⟨_, _, [], htype, .inl rfl, (List.append_nil _).symm⟩

theorem reads_objects (hdata : data.length < 2 ^ 31) :
    Reads data (fun pos => borshReadU32 data pos >>= fun r =>
        many (borshReadObject utf8Error data) r.1 r.2)
      (fun objs part => objs.length < 2 ^ 32 ∧ ∃ parts, List.Forall₂ ObjectLayout objs parts ∧
        part = Borsh.le32 objs.length ++ parts.flatten)
      fun part => ∃ len objs parts front, len < 2 ^ 32 ∧ objs.length < len ∧
        List.Forall₂ ObjectLayout objs parts ∧ BeforeLength front ∧
        part = Borsh.le32 len ++ (parts.flatten ++ front) := by
  refine ((reads_u32 hdata).bind fun len => (reads_object utf8Error hdata).many len).of_iff
    (fun objs part => ?_) fun part => ?_
  · constructor
    · rintro ⟨_, _, _, ⟨hlen, rfl⟩, ⟨rfl, parts, hparts, rfl⟩, rfl⟩
      exact ⟨hlen, parts, hparts, rfl⟩
    · rintro ⟨hlen, parts, hparts, rfl⟩
      exact ⟨_, _, _, ⟨hlen, rfl⟩, ⟨rfl, parts, hparts, rfl⟩, rfl⟩
  · constructor
    · rintro (hnone | ⟨len, _, _, ⟨hlen, rfl⟩, ⟨objs, parts, front, hfew, hparts, hfront, rfl⟩, rfl⟩)
      · exact hnone.elim
      · exact ⟨len, objs, parts, front, hlen, hfew, hparts, hfront, rfl⟩
    · rintro ⟨len, objs, parts, front, hlen, hfew, hparts, hfront, rfl⟩
      exact .inr ⟨len, _, _, ⟨hlen, rfl⟩, ⟨objs, parts, front, hfew, hparts, hfront, rfl⟩, rfl⟩

end Specs

/-! ## What is accepted -/

/-- The Borsh encoding of the list of the pairs of a SHA and what is stored of it. -/
def serializeObjects (objs : List StoredObject) : Option Bytes :=
  (Borsh.vec (Borsh.pair Borsh.string (Borsh.option (Borsh.pair Borsh.string Borsh.bytes)))).serialize
    (objs.map fun obj => (obj.sha, obj.object))

theorem objectLayout_of_serialize {obj : StoredObject} {part : Bytes}
    (h : (Borsh.pair Borsh.string (Borsh.option (Borsh.pair Borsh.string Borsh.bytes))).serialize
      (obj.sha, obj.object) = some part) : ObjectLayout obj part := by
  obtain ⟨front, back, hfront, hback, rfl⟩ := Borsh.serialize_pair_eq_some h
  have hsha : TextLayout obj.sha front := Borsh.serialize_bytes_eq_some hfront
  obtain ⟨sha, _ | ⟨objType, objData⟩⟩ := obj
  · cases hback
    exact .none hsha (by decide)
  · obtain ⟨written, hwritten, hback⟩ := Option.bind_eq_some_iff.mp hback
    cases hback
    obtain ⟨typePart, dataPart, htype, hdata, rfl⟩ := Borsh.serialize_pair_eq_some hwritten
    exact .some hsha (Borsh.serialize_bytes_eq_some htype) (Borsh.serialize_bytes_eq_some hdata)

theorem layout_of_serializeObjects {objs : List StoredObject} {bs : Bytes}
    (h : serializeObjects objs = some bs) : objs.length < 2 ^ 32 ∧
      ∃ parts, List.Forall₂ ObjectLayout objs parts ∧
        bs = Borsh.le32 objs.length ++ parts.flatten := by
  obtain ⟨hlen, parts, hparts, rfl⟩ := Borsh.serialize_vec_eq_some h
  rw [List.length_map] at hlen ⊢
  rw [List.forall₂_map_left_iff] at hparts
  exact ⟨hlen, parts, hparts.imp fun obj part => objectLayout_of_serialize, rfl⟩

/-! ## What is refused -/

section Errors
variable (utf8Error : Bytes → String) (data : Bytes) (pos : ℕ)

/-- The data is at its end, or a text is not in UTF-8. -/
def DecodeError (text : String) : Prop :=
  text = endOfData ∨ ∃ bytes, Utf8.decode bytes = none ∧ text = utf8Error bytes

theorem borshReadU8_errsWith : (borshReadU8 data pos).ErrsWith (DecodeError utf8Error) := by
  unfold borshReadU8
  split
  · trivial
  · exact .inl rfl

theorem borshReadU32_errsWith : (borshReadU32 data pos).ErrsWith (DecodeError utf8Error) := by
  unfold borshReadU32
  split_ifs
  · trivial
  · split
    · trivial
    · exact .inl rfl

theorem borshReadBytes_errsWith : (borshReadBytes data pos).ErrsWith (DecodeError utf8Error) := by
  refine (borshReadU32_errsWith utf8Error data pos).bind fun r => ?_
  dsimp only
  split_ifs
  · trivial
  · exact .inl rfl
  · trivial

theorem borshReadString_errsWith :
    (borshReadString utf8Error data pos).ErrsWith (DecodeError utf8Error) := by
  refine (borshReadBytes_errsWith utf8Error data pos).bind fun r => ?_
  dsimp only
  split
  · trivial
  · next htext => exact .inr ⟨_, htext, rfl⟩

theorem borshReadObject_errsWith :
    (borshReadObject utf8Error data pos).ErrsWith (DecodeError utf8Error) := by
  refine (borshReadString_errsWith utf8Error data pos).bind fun sha => ?_
  refine (borshReadU8_errsWith utf8Error data sha.2).bind fun tag => ?_
  dsimp only
  split_ifs
  · refine (borshReadString_errsWith utf8Error data tag.2).bind fun objType => ?_
    exact (borshReadBytes_errsWith utf8Error data objType.2).bind fun _ => trivial
  · trivial

theorem borshDecodeObjects_errsWith :
    (borshDecodeObjects utf8Error data).ErrsWith (DecodeError utf8Error) := by
  refine (borshReadU32_errsWith utf8Error data 0).bind fun len => ?_
  exact (errsWith_many (borshReadObject_errsWith utf8Error data) len.1 len.2).bind fun _ => trivial

end Errors

section Accepted
variable (utf8Error : Bytes → String) {data : Bytes}

theorem borshDecodeObjects_eq (data : Bytes) : borshDecodeObjects utf8Error data =
    ((borshReadU32 data 0 >>= fun r => many (borshReadObject utf8Error data) r.1 r.2) >>=
      fun r => pure (.array (r.1.map StoredObject.json))) := by
  rw [bind_assoc]
  rfl

theorem borshDecodeObjects_eq_ok (hdata : data.length < 2 ^ 31) {v : Json} :
    borshDecodeObjects utf8Error data = .ok v ↔ ∃ objs parts rest, objs.length < 2 ^ 32 ∧
      List.Forall₂ ObjectLayout objs parts ∧
      data = Borsh.le32 objs.length ++ parts.flatten ++ rest ∧
      v = .array (objs.map StoredObject.json) := by
  rw [borshDecodeObjects_eq, Outcome.bind_eq_ok]
  constructor
  · rintro ⟨⟨objs, pos⟩, hread, h⟩
    cases h
    obtain ⟨_, ⟨hlen, parts, hparts, rfl⟩, hspans⟩ := (reads_objects utf8Error hdata).ok_iff.mp hread
    exact ⟨objs, parts, _, hlen, hparts, hspans.1, rfl⟩
  · rintro ⟨objs, parts, rest, hlen, hparts, hwritten, rfl⟩
    have hspans := spans_of_drop (List.drop_zero.trans hwritten)
    exact ⟨_, (reads_objects utf8Error hdata).ok_iff.mpr ⟨_, ⟨hlen, parts, hparts, rfl⟩, hspans⟩,
      rfl⟩

theorem borshDecodeObjects_eq_panic (hdata : data.length < 2 ^ 31) {why : Panic} :
    borshDecodeObjects utf8Error data = .panic why ↔ why = .addOverflow ∧
      ∃ len objs parts front, len < 2 ^ 32 ∧ objs.length < len ∧
        List.Forall₂ ObjectLayout objs parts ∧ BeforeLength front ∧
        Overruns data 0 (Borsh.le32 len ++ (parts.flatten ++ front)) := by
  rw [borshDecodeObjects_eq, Outcome.bind_eq_panic,
    (reads_objects utf8Error hdata).panic_iff (Nat.zero_le _)]
  constructor
  · rintro (⟨rfl, _, ⟨len, objs, parts, front, hlen, hfew, hparts, hfront, rfl⟩, hover⟩ | ⟨_, _, h⟩)
    · exact ⟨rfl, len, objs, parts, front, hlen, hfew, hparts, hfront, hover⟩
    · cases h
  · rintro ⟨rfl, len, objs, parts, front, hlen, hfew, hparts, hfront, hover⟩
    exact .inl ⟨rfl, _, ⟨len, objs, parts, front, hlen, hfew, hparts, hfront, rfl⟩, hover⟩

/-- The decoder gives exactly the objects that the data begins with, whatever follows them; it is
stopped exactly where a length leads too far for a `usize` before all of the objects are read, and
otherwise returns an error; and it reads back what Borsh writes. -/
theorem borsh_decode_objects_iff (hdata : data.length < 2 ^ 31) :
    (∀ v, borshDecodeObjects utf8Error data = .ok v ↔ ∃ objs parts rest, objs.length < 2 ^ 32 ∧
      List.Forall₂ ObjectLayout objs parts ∧
      data = Borsh.le32 objs.length ++ parts.flatten ++ rest ∧
      v = .array (objs.map StoredObject.json)) ∧
    (∀ why, borshDecodeObjects utf8Error data = .panic why ↔ why = .addOverflow ∧
      ∃ len objs parts front, len < 2 ^ 32 ∧ objs.length < len ∧
        List.Forall₂ ObjectLayout objs parts ∧ BeforeLength front ∧
        Overruns data 0 (Borsh.le32 len ++ (parts.flatten ++ front))) ∧
    ((∀ v, borshDecodeObjects utf8Error data ≠ .ok v) →
      (∀ why, borshDecodeObjects utf8Error data ≠ .panic why) →
      ∃ text, borshDecodeObjects utf8Error data = .err text ∧ DecodeError utf8Error text) ∧
    ∀ objs bs rest, serializeObjects objs = some bs → data = bs ++ rest →
      borshDecodeObjects utf8Error data = .ok (.array (objs.map StoredObject.json)) := by
  refine ⟨fun v => borshDecodeObjects_eq_ok utf8Error hdata,
    fun why => borshDecodeObjects_eq_panic utf8Error hdata,
    (borshDecodeObjects_errsWith utf8Error data).exists_err, fun objs bs rest hbs hwritten => ?_⟩
  obtain ⟨hlen, parts, hparts, rfl⟩ := layout_of_serializeObjects hbs
  exact (borshDecodeObjects_eq_ok utf8Error hdata).mpr
    ⟨objs, parts, rest, hlen, hparts, hwritten, rfl⟩

end Accepted

/-- One object, cut off after its type, and a length of `u32::MAX` there. -/
def cutObject : Bytes := [1, 0, 0, 0, 1, 0, 0, 0, 97, 1, 1, 0, 0, 0, 98, 255, 255, 255, 255]

def taggedObject : Bytes := [1, 0, 0, 0, 1, 0, 0, 0, 97, 7, 255]

theorem borsh_decode_objects_cut :
    borshDecodeObjects (fun _ => "invalid utf-8") cutObject = .panic .addOverflow ∧
      borshDecodeObjects (fun _ => "invalid utf-8") taggedObject =
        .ok (.array [.array [.string "a", .null]]) := by
  have hsha : TextLayout "a" [1, 0, 0, 0, 97] := ⟨by decide +kernel, by decide +kernel⟩
  have htype : TextLayout "b" [1, 0, 0, 0, 98] := ⟨by decide +kernel, by decide +kernel⟩
  have hcut : cutObject.length < 2 ^ 31 := by decide
  have htagged : taggedObject.length < 2 ^ 31 := by decide
  have habsent : ObjectLayout { sha := "a", object := none } [1, 0, 0, 0, 97, 7] :=
    .none hsha (by decide)
  constructor
  · refine ((borsh_decode_objects_iff _ hcut).2.1 _).mpr
      ⟨rfl, 1, [], [], _, by decide, by decide, .nil, .objData hsha htype, ?_⟩
    exact ⟨2 ^ 32 - 1, [], by decide, by decide, by decide⟩
  · exact ((borsh_decode_objects_iff _ htagged).1 _).mpr
      ⟨_, _, [255], by decide, .cons habsent .nil, by decide, rfl⟩

end NearGit.WasmLib
