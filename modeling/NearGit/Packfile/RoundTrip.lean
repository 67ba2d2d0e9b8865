import NearGit.Packfile.Build
import NearGit.Packfile.DeltaRoundTrip
import NearGit.Packfile.FormatCorrect
import Mathlib.Order.Defs.LinearOrder
import Mathlib.Data.String.Basic

/-! What `build_with_bases` writes is a well-formed pack, and `parse` gives the objects back. -/

namespace NearGit.Packfile
open Lib

variable {C : Crates} {bases objs : List PackObject}

/-! ## The order of the entries -/

def ByTypeThenSize (a b : PackObject) : Prop :=
  a.objType < b.objType ∨ a.objType = b.objType ∧ b.data.length ≤ a.data.length

instance (a b : PackObject) : Decidable (ByTypeThenSize a b) :=
  inferInstanceAs (Decidable (_ ∨ _))

theorem sortsBefore_iff (a b : PackObject) : sortsBefore a b ↔ ByTypeThenSize a b := by
  rw [sortsBefore, ByTypeThenSize]
  rcases lt_trichotomy a.objType b.objType with h | h | h
  · rw [compare_lt_iff_lt.mpr h]
    simp [h]
  · rw [compare_eq_iff_eq.mpr h, h]
    simp [Nat.isLE_compare]
  · rw [compare_gt_iff_gt.mpr h]
    simp [h.not_gt, h.ne']

theorem sortsBefore_eq : sortsBefore = fun a b => decide (ByTypeThenSize a b) := by
  funext a b
  rw [Bool.eq_iff_iff, sortsBefore_iff, decide_eq_true_iff]

theorem ByTypeThenSize.objType_le {a b : PackObject} (h : ByTypeThenSize a b) :
    a.objType ≤ b.objType := by
  rcases h with h | h
  · exact h.le
  · exact h.1.le

theorem ByTypeThenSize.trans {a b c : PackObject} (hab : ByTypeThenSize a b)
    (hbc : ByTypeThenSize b c) : ByTypeThenSize a c := by
  rcases hab with hab | ⟨hab, hlen⟩
  · exact .inl (hab.trans_le hbc.objType_le)
  · rcases hbc with hbc | ⟨hbc, hlen'⟩
    · exact .inl (hab ▸ hbc)
    · exact .inr ⟨hab.trans hbc, hlen'.trans hlen⟩

theorem byTypeThenSize_total (a b : PackObject) : ByTypeThenSize a b ∨ ByTypeThenSize b a := by
  rcases lt_trichotomy a.objType b.objType with h | h | h
  · exact .inl (.inl h)
  · rcases le_total b.data.length a.data.length with hlen | hlen
    · exact .inl (.inr ⟨h, hlen⟩)
    · exact .inr (.inr ⟨h.symm, hlen⟩)
  · exact .inr (.inl h)

theorem pairwise_mergeSort_sortsBefore (objs : List PackObject) :
    (objs.mergeSort sortsBefore).Pairwise ByTypeThenSize := by
  refine (List.pairwise_mergeSort ?_ ?_ objs).imp fun h => (sortsBefore_iff _ _).mp h
  · intro a b c hab hbc
    rw [sortsBefore_iff] at *
    exact hab.trans hbc
  · intro a b
    rw [Bool.or_eq_true, sortsBefore_iff, sortsBefore_iff]
    exact byTypeThenSize_total a b

/-! ## The first pass -/

/-- Entry `i` as the first pass leaves it, and the entry of the format that it becomes. Only
the entry right before it is a base inside the pack. -/
inductive Planned (C : Crates) (bases objs : List PackObject) : Nat → BuildEntry → Entry → Prop
  | full {i : Nat} {obj : PackObject} : objs[i]? = some obj →
      Planned C bases objs i
        { obj, refDelta := none, ofsDeltaIdx := none, ofsDeltaData := none }
        (.full obj.objType obj.data)
  | refDelta {i : Nat} {obj base : PackObject} {delta : Bytes} : objs[i]? = some obj →
      base ∈ bases → base.objType = obj.objType → delta = computeDelta base.data obj.data →
      delta.length < obj.data.length →
      Planned C bases objs i
        { obj, refDelta := some (base.sha1 C, delta), ofsDeltaIdx := none, ofsDeltaData := none }
        (.refDelta (C.sha1 base.preimage) delta)
  | ofsDelta {j : Nat} {obj base : PackObject} {delta : Bytes} : objs[j + 1]? = some obj →
      objs[j]? = some base → base.objType = obj.objType →
      delta = computeDelta base.data obj.data → delta.length < obj.data.length →
      Planned C bases objs (j + 1)
        { obj, refDelta := none, ofsDeltaIdx := some j, ofsDeltaData := some delta }
        (.ofsDelta j delta)

inductive PlannedFrom (C : Crates) (bases objs : List PackObject) :
    Nat → List BuildEntry → List Entry → Prop
  | nil {i : Nat} : PlannedFrom C bases objs i [] []
  | cons {i : Nat} {e : BuildEntry} {fe : Entry} {es : List BuildEntry} {fes : List Entry} :
      Planned C bases objs i e fe → PlannedFrom C bases objs (i + 1) es fes →
      PlannedFrom C bases objs i (e :: es) (fe :: fes)

/-- The best delta so far is one against a base of the object's type, or there is none. -/
inductive BestFor (C : Crates) (bases : List PackObject) (prev : Nat → Option PackObject)
    (obj : PackObject) : BestDelta → Prop
  | none : BestFor C bases prev obj { delta := none, baseSha := none, ofsIdx := none }
  | base {base : PackObject} {delta : Bytes} : base ∈ bases → base.objType = obj.objType →
      delta = computeDelta base.data obj.data → delta.length < obj.data.length →
      BestFor C bases prev obj { delta := some delta, baseSha := some (base.sha1 C), ofsIdx := none }
  | prev {j : Nat} {base : PackObject} {delta : Bytes} : prev j = some base →
      base.objType = obj.objType → delta = computeDelta base.data obj.data →
      delta.length < obj.data.length →
      BestFor C bases prev obj { delta := some delta, baseSha := none, ofsIdx := some j }

theorem BestDelta.offer_cases {W : Usize} (best : BestDelta) {dataLen : Nat}
    (hfit : dataLen * 9 < 2 ^ W.bits) (delta : Bytes) (baseSha : Option String)
    (ofsIdx : Option Nat) :
    best.offer W dataLen delta baseSha ofsIdx = .ok best ∨
      delta.length < dataLen ∧
        best.offer W dataLen delta baseSha ofsIdx = .ok { delta := some delta, baseSha, ofsIdx } := by
  rw [BestDelta.offer, Usize.mul_of_lt hfit, Outcome.ok_bind]
  split_ifs with h
  · have hlt : delta.length < dataLen := by omega
    split
    · exact .inr ⟨hlt, rfl⟩
    · split_ifs
      · exact .inr ⟨hlt, rfl⟩
      · exact .inl rfl
  · exact .inl rfl

theorem bestFor_offerBases {W : Usize} {obj : PackObject}
    (hfit : obj.data.length * 9 < 2 ^ W.bits) (prev : Nat → Option PackObject) :
    ∃ best, offerBases W C (group PackObject.objType bases obj.objType) obj = .ok best ∧
      BestFor C bases prev obj best := by
  have hmem (base : PackObject) (h : base ∈ group PackObject.objType bases obj.objType) :=
    mem_group.mp h
  rw [offerBases]
  generalize group PackObject.objType bases obj.objType = candidates at hmem ⊢
  have hnone : BestFor C bases prev obj { delta := none, baseSha := none, ofsIdx := none } := .none
  revert hnone
  generalize ({ delta := none, baseSha := none, ofsIdx := none } : BestDelta) = best
  induction candidates generalizing best with
  | nil => exact fun hbest => ⟨best, rfl, hbest⟩
  | cons base candidates ih =>
    intro hbest
    obtain ⟨hbase, htype⟩ := hmem base List.mem_cons_self
    rw [List.foldlM_cons]
    have ih := ih fun base' h => hmem base' (List.mem_cons_of_mem _ h)
    rcases best.offer_cases hfit (computeDelta base.data obj.data) (some (base.sha1 C)) none with
      h | ⟨hlt, h⟩
    · rw [h, Outcome.ok_bind]
      exact ih best hbest
    · rw [h, Outcome.ok_bind]
      exact ih _ (.base hbase htype rfl hlt)

def LastSound (done : List PackObject) (lastByType : String → Option Nat) : Prop :=
  ∀ objType j, lastByType objType = some j → ∃ base, done[j]? = some base ∧
    base.objType = objType ∧ ∀ k o, j < k → done[k]? = some o → o.objType ≠ objType

theorem LastSound.concat {done : List PackObject} {lastByType : String → Option Nat}
    (h : LastSound done lastByType) (obj : PackObject) :
    LastSound (done ++ [obj])
      (Function.update lastByType obj.objType (some done.length)) := by
  intro objType j hj
  rcases eq_or_ne objType obj.objType with rfl | hne
  · rw [Function.update_self, Option.some.injEq] at hj
    subst hj
    refine ⟨obj, List.getElem?_concat_length, rfl, fun k o hk ho => ?_⟩
    have hlt := (List.getElem?_eq_some_iff.mp ho).1
    rw [List.length_append, List.length_singleton] at hlt
    omega
  · rw [Function.update_of_ne hne] at hj
    obtain ⟨base, hbase, htype, hlast⟩ := h objType j hj
    have hlt := (List.getElem?_eq_some_iff.mp hbase).1
    refine ⟨base, by rw [List.getElem?_append_left hlt, hbase], htype, fun k o hk ho => ?_⟩
    rcases lt_or_ge k done.length with hkd | hkd
    · rw [List.getElem?_append_left hkd] at ho
      exact hlast k o hk ho
    · rw [List.getElem?_append_right hkd, List.getElem?_singleton] at ho
      split_ifs at ho
      rw [Option.some.injEq] at ho
      exact ho ▸ hne.symm

theorem LastSound.succ_eq {done rest : List PackObject} {obj : PackObject}
    {lastByType : String → Option Nat} (h : LastSound done lastByType)
    (hsorted : (done ++ obj :: rest).Pairwise ByTypeThenSize) {j : Nat}
    (hj : lastByType obj.objType = some j) : j + 1 = done.length := by
  obtain ⟨base, hbase, htype, hlast⟩ := h _ _ hj
  have hlt := (List.getElem?_eq_some_iff.mp hbase).1
  by_contra hne
  have hlt' : j + 1 < done.length := by omega
  have ho : done[j + 1]? = some done[j + 1] := List.getElem?_eq_getElem hlt'
  rw [List.pairwise_append] at hsorted
  obtain ⟨hdone, -, hcross⟩ := hsorted
  have hle : base.objType ≤ done[j + 1].objType := by
    rw [List.getElem?_eq_getElem hlt, Option.some.injEq] at hbase
    subst hbase
    exact (List.pairwise_iff_getElem.mp hdone j (j + 1) hlt hlt' (Nat.lt_succ_self j)).objType_le
  have hle' : done[j + 1].objType ≤ obj.objType :=
    (hcross _ (List.getElem_mem hlt') _ (List.mem_cons_self ..)).objType_le
  rw [htype] at hle
  exact hlast (j + 1) _ (Nat.lt_succ_self j) ho (le_antisymm hle' hle)

theorem planned_of_bestFor {i : Nat} {obj : PackObject} {best : BestDelta}
    (hobj : objs[i]? = some obj) {prev : Nat → Option PackObject}
    (hprev : ∀ j base, prev j = some base → i = j + 1 ∧ objs[j]? = some base)
    (hbest : BestFor C bases prev obj best) :
    ∃ e fe, best.entry obj = .ok e ∧ e.obj = obj ∧ Planned C bases objs i e fe := by
  cases hbest with
  | none => exact ⟨_, _, rfl, rfl, .full hobj⟩
  | base hmem htype hdelta hlt => exact ⟨_, _, rfl, rfl, .refDelta hobj hmem htype hdelta hlt⟩
  | prev hj htype hdelta hlt =>
    obtain ⟨rfl, hbase⟩ := hprev _ _ hj
    exact ⟨_, _, rfl, rfl, .ofsDelta hobj hbase htype hdelta hlt⟩

theorem bestFor_offerPrevious {W : Usize} {entries : List BuildEntry} {last : Option Nat}
    {obj : PackObject} (hfit : obj.data.length * 9 < 2 ^ W.bits) {best : BestDelta}
    {prev : Nat → Option PackObject} (hbest : BestFor C bases prev obj best)
    (hlast : ∀ j, last = some j → ∃ e, entries[j]? = some e ∧ prev j = some e.obj ∧
      e.obj.objType = obj.objType) :
    ∃ best', offerPrevious W entries last obj best = .ok best' ∧
      BestFor C bases prev obj best' := by
  cases last with
  | none => exact ⟨best, rfl, hbest⟩
  | some j =>
    obtain ⟨e, he, hprev, htype⟩ := hlast j rfl
    simp only [offerPrevious, he]
    rcases best.offer_cases hfit (computeDelta e.obj.data obj.data) none (some j)
      with h | ⟨hlt, h⟩
    · exact ⟨best, h, hbest⟩
    · exact ⟨_, h, .prev hprev htype rfl hlt⟩

theorem planEntries_spec {W : Usize} {done objs : List PackObject}
    {lastByType : String → Option Nat} {entries : List BuildEntry}
    (hfit : ∀ obj ∈ objs, obj.data.length * 9 < 2 ^ W.bits)
    (hsorted : (done ++ objs).Pairwise ByTypeThenSize)
    (hlast : LastSound done lastByType) (hentries : entries.map BuildEntry.obj = done) :
    ∃ es fes, planEntries W C (group PackObject.objType bases) objs lastByType entries =
        .ok (entries ++ es) ∧ es.length = objs.length ∧
      PlannedFrom C bases (done ++ objs) done.length es fes := by
  induction objs generalizing done lastByType entries with
  | nil => exact ⟨[], [], by rw [planEntries, List.append_nil], rfl, .nil⟩
  | cons obj objs ih =>
    have hlen : entries.length = done.length := by rw [← hentries, List.length_map]
    have hobj : (done ++ obj :: objs)[done.length]? = some obj := by simp
    -- the only base inside the pack is the entry right before
    let prev : Nat → Option PackObject := fun j => if j + 1 = done.length then done[j]? else none
    have hprev : ∀ j base, prev j = some base →
        done.length = j + 1 ∧ (done ++ obj :: objs)[j]? = some base := by
      intro j base hj
      simp only [prev] at hj
      split_ifs at hj with h
      exact ⟨h.symm, by rw [List.getElem?_append_left (by omega), hj]⟩
    have hprevOf : ∀ j, lastByType obj.objType = some j → ∃ e, entries[j]? = some e ∧
        prev j = some e.obj ∧ e.obj.objType = obj.objType := by
      intro j hj
      obtain ⟨base, hbase, htype, -⟩ := hlast _ _ hj
      have hsucc := hlast.succ_eq hsorted hj
      rw [← hentries, List.getElem?_map, Option.map_eq_some_iff] at hbase
      obtain ⟨e, he, rfl⟩ := hbase
      refine ⟨e, he, ?_, htype⟩
      simp only [prev]
      rw [if_pos hsucc, ← hentries, List.getElem?_map, he]
      rfl
    obtain ⟨hobjFit, hfit⟩ := List.forall_mem_cons.mp hfit
    obtain ⟨best₀, hbases, hbest₀⟩ : ∃ best, _ = Outcome.ok best ∧ BestFor C bases prev obj best :=
      bestFor_offerBases hobjFit prev
    obtain ⟨best, hoffer, hbest⟩ := bestFor_offerPrevious hobjFit hbest₀ hprevOf
    obtain ⟨e, fe, hentry, heobj, hplanned⟩ := planned_of_bestFor hobj hprev hbest
    have hsorted' : ((done ++ [obj]) ++ objs).Pairwise ByTypeThenSize := by simpa using hsorted
    have hentries' : (entries ++ [e]).map BuildEntry.obj = done ++ [obj] := by
      simp [hentries, heobj]
    obtain ⟨es, fes, hplan, hcount, hfrom⟩ := ih hfit hsorted' (hlast.concat obj) hentries'
    refine ⟨e :: es, fe :: fes, ?_, by simp [hcount], .cons hplanned ?_⟩
    · rw [planEntries, hbases, Outcome.ok_bind, hoffer, Outcome.ok_bind, hentry, Outcome.ok_bind, hlen,
        hplan, List.append_assoc, List.singleton_append]
    · simpa using hfrom

/-! ## The second pass -/

theorem isEntryHeader_encodePackHeader {typeBits size : Nat} (htype : typeBits < 8)
    (hsize : size < 2 ^ 32) : IsEntryHeader typeBits size (encodePackHeader typeBits size) := by
  have hlow : (UInt8.ofNat (size &&& 0x0f)).toNat = size % 16 := by
    rw [show size &&& 0x0f = size % 16 from Nat.and_two_pow_sub_one_eq_mod size 4,
      UInt8.toNat_ofNat']
    omega
  have hhigh : (UInt8.ofNat typeBits <<< 4).toNat = typeBits * 16 := by
    rw [UInt8.toNat_shiftLeft, UInt8.toNat_ofNat', Nat.shiftLeft_eq]
    simp
    omega
  have hfirst : (UInt8.ofNat typeBits <<< 4 ||| UInt8.ofNat (size &&& 0x0f)).toNat =
      size % 16 + typeBits * 16 := by
    rw [UInt8.toNat_or, hlow, hhigh, Nat.or_comm, show typeBits * 16 = typeBits <<< 4 from
      (Nat.shiftLeft_eq typeBits 4).symm, or_shiftLeft_eq_add _ (show size % 16 < 2 ^ 4 by omega),
      Nat.shiftLeft_eq]
  rw [encodePackHeader]
  simp only [Nat.shiftRight_eq_div_pow]
  split_ifs with hmore
  · have hset := Byte.or_80_toNat _ (show
      (UInt8.ofNat typeBits <<< 4 ||| UInt8.ofNat (size &&& 0x0f)).toNat < 128 by omega)
    have hlen := Varint.encode_length_le 4 (show size / 2 ^ 4 < 128 ^ 5 by omega)
    refine ⟨_, _, rfl, ?_, ?_, by omega, ?_⟩
    · rw [Varint.isVarint_cons (Varint.encode_ne_nil _)]
      exact ⟨by omega, Varint.isVarint_encode _⟩
    · rw [List.length_cons]
      omega
    · rw [Varint.leValue_encode, hset, hfirst]
      omega
  · refine ⟨_, _, rfl, ?_, by simp, by omega, ?_⟩
    · rw [Varint.isVarint_singleton, hfirst]
      omega
    · rw [Varint.leValue, hfirst]
      omega

theorem encodePackHeader_length_le {typeBits size : Nat} (htype : typeBits < 8)
    (hsize : size < 2 ^ 32) : (encodePackHeader typeBits size).length ≤ 10 := by
  obtain ⟨_, _, _, _, hlen, _⟩ := isEntryHeader_encodePackHeader htype hsize
  exact hlen

theorem isOfsOffset_encodeOfsOffset {offset : Nat} (h : offset < 2 ^ 64) :
    IsOfsOffset offset (encodeOfsOffset offset) :=
  ⟨Varint.isVarint_ofsEncode offset, Varint.ofsValue_ofsEncode offset, h⟩

theorem IsOfsOffset.eq_encodeOfsOffset {offset : Nat} {bs : Bytes} (h : IsOfsOffset offset bs) :
    bs = encodeOfsOffset offset := by
  obtain ⟨hvarint, rfl, -⟩ := h
  exact (Varint.ofsEncode_ofsValue hvarint).symm

/-- Every offset is read back from what is written for it, and nothing else is read as it: the
bytes of an offset that fits are what is written for that offset. -/
theorem ofsOffset_bijective :
    (∀ (offset : UInt64) (rest : Bytes), readOfsOffset (encodeOfsOffset offset.toNat ++ rest) =
      .ok (offset.toNat, (encodeOfsOffset offset.toNat).length)) ∧
    (∀ bs, Varint.IsVarint bs → Varint.ofsValue bs < 2 ^ 64 →
      encodeOfsOffset (Varint.ofsValue bs) = bs ∧
        ∀ rest, readOfsOffset (bs ++ rest) = .ok (Varint.ofsValue bs, bs.length)) ∧
    ∀ offset : UInt64, ∃! bs, IsOfsOffset offset.toNat bs := by
  have hwritten (offset : UInt64) := isOfsOffset_encodeOfsOffset offset.toNat_lt
  refine ⟨fun offset rest => ?_, fun bs hvarint hvalue => ⟨?_, fun rest => ?_⟩, fun offset => ?_⟩
  · exact readOfsOffset_append (hwritten offset) rest
  · exact Varint.ofsEncode_ofsValue hvarint
  · exact readOfsOffset_append ⟨hvarint, rfl, hvalue⟩ rest
  · refine ⟨_, hwritten offset, fun bs hbs => ?_⟩
    exact hbs.eq_encodeOfsOffset

theorem ofsOffset_bijective_128 : encodeOfsOffset (Varint.ofsValue [0x80, 0]) = [0x80, 0] :=
  (ofsOffset_bijective.2.1 [0x80, 0] (by decide) (by decide)).1

theorem decodeSha_ofBytes (sha : Vector UInt8 20) :
    decodeSha (Hex.ofBytes sha.toList) = .ok sha.toList := by
  have hlen : sha.toList.length = 20 := by simp
  have htext : (Hex.ofBytes sha.toList).toList = sha.toList.flatMap Hex.ofByte :=
    String.toList_ofList
  have hsize : (Hex.ofBytes sha.toList).length = 40 := by
    rw [← String.length_toList, htext, List.length_flatMap]
    simp [Hex.ofByte_length]
  have hbyte : ∀ i ∈ List.range 20,
      shaByte (Hex.ofBytes sha.toList) i = .ok (sha.toList.getD i 0) := by
    intro i hi
    have hi : i < sha.toList.length := by
      rw [hlen]
      exact List.mem_range.mp hi
    rw [shaByte, if_neg (by omega), htext, Hex.drop_take_flatMap_ofByte _ hi,
      Hex.fromStrRadix_ofByte, List.getD_eq_getElem _ _ hi]
    simp
  rw [decodeSha, Outcome.mapM_eq_ok_map hbyte]
  congr 1
  refine List.ext_getElem (by simp) fun i _ hi => ?_
  rw [List.getElem_map, List.getElem_range, List.getD_eq_getElem _ _ hi]

theorem entry_length_lt (hC : C.Zlib) {bits : Nat} (hbits : bits < 8) {x : Bytes}
    (hx : x.length < 2 ^ 32) (more : Bytes) (hmore : more.length ≤ 20) :
    (encodePackHeader bits x.length ++ (more ++ C.deflate x)).length < 2 ^ 64 := by
  have hheader := encodePackHeader_length_le hbits hx
  have hdeflate := hC.deflate_length x hx
  rw [List.length_append, List.length_append]
  omega

def Writes (C : Crates) (starts : List Nat) (pos : Nat) (e : BuildEntry) (fe : Entry) : Prop :=
  ∃ bytes, encodeEntry C pos (starts ++ [pos]) e = .ok bytes ∧
    EntryLayout .w64 C starts pos fe bytes ∧
    bytes.length < 2 ^ 64

theorem writes_full (hC : C.Zlib) {obj : PackObject} (htype : IsObjType obj.objType)
    (hdata : obj.data.length < 2 ^ 32) (starts : List Nat) (pos : Nat) :
    Writes C starts pos { obj, refDelta := none, ofsDeltaIdx := none, ofsDeltaData := none }
      (.full obj.objType obj.data) := by
  obtain ⟨bits, hbits, hlt, hfrom⟩ := typeToBits_of_isObjType htype
  have hbits8 : bits < 8 := by omega
  have hencode : encodeEntry C pos (starts ++ [pos])
      { obj, refDelta := none, ofsDeltaIdx := none, ofsDeltaData := none } =
      .ok (encodePackHeader bits obj.data.length ++ C.deflate obj.data) := by
    rw [encodeEntry, hbits]
    rfl
  have hzlib := isZlib_deflate (W := .w64) hC (hdata.le.trans (by decide))
  exact ⟨_, hencode, .full hfrom (isEntryHeader_encodePackHeader hbits8 hdata) hzlib,
    entry_length_lt hC hbits8 hdata [] (by decide)⟩

theorem writes_refDelta (hC : C.Zlib) {obj base : PackObject} {delta : Bytes}
    (hdelta : delta.length < 2 ^ 32) (starts : List Nat) (pos : Nat) :
    Writes C starts pos
      { obj, refDelta := some (base.sha1 C, delta), ofsDeltaIdx := none, ofsDeltaData := none }
      (.refDelta (C.sha1 base.preimage) delta) := by
  have hheader := isEntryHeader_encodePackHeader (show 7 < 8 by decide) hdelta
  have hsha : (C.sha1 base.preimage).toList.length = 20 := by simp
  have hencode : encodeEntry C pos (starts ++ [pos])
      { obj, refDelta := some (base.sha1 C, delta), ofsDeltaIdx := none, ofsDeltaData := none } =
      .ok (encodePackHeader 7 delta.length ++
        ((C.sha1 base.preimage).toList ++ C.deflate delta)) := by
    simp only [encodeEntry, PackObject.sha1, decodeSha_ofBytes]
    rfl
  have hzlib := isZlib_deflate (W := .w64) hC (hdelta.le.trans (by decide))
  exact ⟨_, hencode, .refDelta hheader hzlib, entry_length_lt hC (by decide) hdelta _ hsha.le⟩

theorem writes_ofsDelta (hC : C.Zlib) {obj : PackObject} {delta : Bytes}
    (hdelta : delta.length < 2 ^ 32) {starts : List Nat} {pos j start : Nat}
    (hstart : starts[j]? = some start) (hle : start ≤ pos) (hoffset : pos - start < 2 ^ 64) :
    Writes C starts pos
      { obj, refDelta := none, ofsDeltaIdx := some j, ofsDeltaData := some delta }
      (.ofsDelta j delta) := by
  have hheader := isEntryHeader_encodePackHeader (show 6 < 8 by decide) hdelta
  have hofs := isOfsOffset_encodeOfsOffset hoffset
  have hofslen : (encodeOfsOffset (pos - start)).length ≤ 10 :=
    Varint.ofsEncode_length_le 9 (show pos - start < 128 ^ 10 by omega)
  have hj := (List.getElem?_eq_some_iff.mp hstart).1
  have hencode : encodeEntry C pos (starts ++ [pos])
      { obj, refDelta := none, ofsDeltaIdx := some j, ofsDeltaData := some delta } =
      .ok (encodePackHeader 6 delta.length ++
        (encodeOfsOffset (pos - start) ++ C.deflate delta)) := by
    rw [encodeEntry]
    simp only [List.getElem?_append_left hj, hstart]
  have hzlib := isZlib_deflate (W := .w64) hC (hdelta.le.trans (by decide))
  exact ⟨_, hencode, .ofsDelta hstart hheader hle hoffset hofs hzlib,
    entry_length_lt hC (by decide) hdelta _ (hofslen.trans (by decide))⟩

theorem encodeEntry_spec (hC : C.Zlib) (hobjs : ∀ o ∈ objs, o.data.length < 2 ^ 32)
    (htypes : ∀ o ∈ objs, IsObjType o.objType) {e : BuildEntry} {fe : Entry} {starts : List Nat}
    {pos : Nat} (hplanned : Planned C bases objs starts.length e fe)
    (hlast : ∀ start, starts.getLast? = some start → start ≤ pos ∧ pos - start < 2 ^ 64) :
    Writes C starts pos e fe := by
  generalize hi : starts.length = i at hplanned
  cases hplanned with
  | full hobj =>
    have hmem := List.mem_of_getElem? hobj
    exact writes_full hC (htypes _ hmem) (hobjs _ hmem) starts pos
  | refDelta hobj _ _ _ hlt =>
    have hdelta := hlt.trans (hobjs _ (List.mem_of_getElem? hobj))
    exact writes_refDelta hC hdelta starts pos
  | @ofsDelta j _ _ _ hobj _ _ _ hlt =>
    have hdelta := hlt.trans (hobjs _ (List.mem_of_getElem? hobj))
    -- the base is the entry right before, so its start is the last one written
    have hj : j < starts.length := by omega
    have hstart : starts[j]? = some starts[j] := List.getElem?_eq_getElem hj
    have hgetLast : starts.getLast? = some starts[j] := by
      rw [List.getLast?_eq_getElem?, hi, Nat.add_sub_cancel, hstart]
    obtain ⟨hle, hoffset⟩ := hlast starts[j] hgetLast
    exact writes_ofsDelta hC hdelta hstart hle hoffset

theorem writeEntries_spec (hC : C.Zlib) (hobjs : ∀ o ∈ objs, o.data.length < 2 ^ 32)
    (htypes : ∀ o ∈ objs, IsObjType o.objType) {es : List BuildEntry} {fes : List Entry} {i : Nat}
    (hfrom : PlannedFrom C bases objs i es fes) :
    ∀ {starts : List Nat} {out : Bytes}, starts.length = i →
      (∀ start, starts.getLast? = some start →
        start ≤ out.length ∧ out.length - start < 2 ^ 64) →
      ∃ body, writeEntries C es starts out = .ok (out ++ body) ∧
        EntriesLayout .w64 C starts out.length fes body := by
  induction hfrom with
  | nil =>
    intro starts out _ _
    exact ⟨[], by rw [writeEntries, List.append_nil], .nil⟩
  | cons hplanned _ ih =>
    rintro starts out rfl hlast
    obtain ⟨bytes, hencode, hlayout, hlen⟩ := encodeEntry_spec hC hobjs htypes hplanned hlast
    have hlast' : ∀ start, (starts ++ [out.length]).getLast? = some start →
        start ≤ (out ++ bytes).length ∧ (out ++ bytes).length - start < 2 ^ 64 := by
      intro start hstart
      rw [List.getLast?_concat, Option.some.injEq] at hstart
      subst hstart
      rw [List.length_append]
      omega
    obtain ⟨body, hwrite, hbody⟩ := ih (by simp) hlast'
    refine ⟨bytes ++ body, ?_, .cons hlayout ?_⟩
    · rw [writeEntries]
      simp only [hencode, Outcome.ok_bind]
      rw [hwrite, List.append_assoc]
    · rwa [List.length_append] at hbody

/-! ## The round trip -/

theorem PlannedFrom.get {i : Nat} {es : List BuildEntry} {fes : List Entry}
    (h : PlannedFrom C bases objs i es fes) {k : Nat} {fe : Entry} (hk : fes[k]? = some fe) :
    ∃ e, Planned C bases objs (i + k) e fe := by
  induction h generalizing k with
  | nil => simp at hk
  | cons hplanned _ ih =>
    cases k with
    | zero =>
      simp only [List.getElem?_cons_zero, Option.some.injEq] at hk
      exact ⟨_, hk ▸ hplanned⟩
    | succ k =>
      obtain ⟨e, he⟩ := ih hk
      exact ⟨e, by rwa [Nat.add_assoc, Nat.add_comm 1] at he⟩

theorem PlannedFrom.length_eq {i : Nat} {es : List BuildEntry} {fes : List Entry}
    (h : PlannedFrom C bases objs i es fes) : es.length = fes.length := by
  induction h with
  | nil => rfl
  | cons _ _ ih => rw [List.length_cons, List.length_cons, ih]

def Resolution.StandsFor (W : Usize) (C : Crates) (bases : List PackObject) (obj : PackObject) :
    Resolution → Prop
  | .object o => o = obj
  | .external baseSha deltas => deltas ≠ [] ∧
      ∃ base ∈ bases, base.sha1 C = baseSha ∧ applyStack W base deltas = .ok obj

section StandsFor
variable {W : Usize}

theorem Resolution.StandsFor.stack {base obj : PackObject} {r : Resolution}
    (h : r.StandsFor W C bases base) (htype : base.objType = obj.objType)
    (hbase : base.data.length < 2 ^ 32) (hobj : obj.data.length ≤ W.isizeMax) :
    ∃ r', r.stack W (computeDelta base.data obj.data) = .ok r' ∧ r'.StandsFor W C bases obj := by
  have happly := applyDelta_computeDelta hbase hobj
  cases r with
  | object o =>
    rw [Resolution.StandsFor] at h
    subst h
    refine ⟨.object obj, ?_, rfl⟩
    rw [Resolution.stack, happly, Outcome.ok_bind, htype]
    rfl
  | external baseSha deltas =>
    obtain ⟨-, ext, hext, hsha, hstack⟩ := h
    refine ⟨_, rfl, by simp, ext, hext, hsha, ?_⟩
    rw [applyStack_concat_eq_ok]
    exact ⟨base, hstack, obj.data, happly, by rw [htype]⟩

theorem exists_standsFor (hobjs : ∀ o ∈ objs, o.data.length < 2 ^ 32)
    (hmax : ∀ o ∈ objs, o.data.length ≤ W.isizeMax) (hbases : ∀ o ∈ bases, o.data.length < 2 ^ 32)
    {es : List BuildEntry} {fes : List Entry} (hfrom : PlannedFrom C bases objs 0 es fes) {i : Nat}
    (hi : i < fes.length) :
    ∃ r obj, objs[i]? = some obj ∧ ResolvesTo W fes i r ∧ r.StandsFor W C bases obj := by
  induction i using Nat.strong_induction_on with
  | _ i ih =>
    have hget := List.getElem?_eq_getElem hi
    obtain ⟨e, hplanned⟩ := hfrom.get hget
    rw [Nat.zero_add] at hplanned
    generalize fes[i] = fe at hplanned hget
    cases hplanned with
    | full hobj => exact ⟨_, _, hobj, .full hget, rfl⟩
    | @refDelta _ obj base delta hobj hbase htype hdelta _ =>
      have hlen := hmax obj (List.mem_of_getElem? hobj)
      refine ⟨_, obj, hobj, .refDelta hget, by simp, base, hbase, rfl, ?_⟩
      rw [← List.nil_append [delta], applyStack_concat_eq_ok]
      refine ⟨base, rfl, obj.data, ?_, by rw [htype]⟩
      rw [hdelta, applyDelta_computeDelta (hbases base hbase) hlen]
    | @ofsDelta j obj base delta hobj hbase htype hdelta _ =>
      obtain ⟨r, base', hbase', hr, hstands⟩ := ih j (Nat.lt_succ_self j) (by omega)
      rw [hbase, Option.some.injEq] at hbase'
      subst hbase'
      obtain ⟨r', hstack, hstands'⟩ := hstands.stack htype (hobjs _ (List.mem_of_getElem? hbase))
        (hmax _ (List.mem_of_getElem? hobj))
      exact ⟨r', obj, hobj, .ofsDelta hget hr (hdelta ▸ hstack), hstands'⟩

theorem exists_resolutions_standFor (hobjs : ∀ o ∈ objs, o.data.length < 2 ^ 32)
    (hmax : ∀ o ∈ objs, o.data.length ≤ W.isizeMax) (hbases : ∀ o ∈ bases, o.data.length < 2 ^ 32)
    {es : List BuildEntry} {fes : List Entry} (hfrom : PlannedFrom C bases objs 0 es fes)
    (hlen : fes.length = objs.length) :
    ∃ rs : List Resolution, rs.length = fes.length ∧
      (∀ i r, rs[i]? = some r → ResolvesTo W fes i r) ∧
      List.Forall₂ (fun r obj => r.StandsFor W C bases obj) rs objs := by
  choose r obj hobj hr hstands using
    fun i : Fin fes.length => exists_standsFor hobjs hmax hbases hfrom i.isLt
  refine ⟨List.ofFn r, List.length_ofFn, fun i q hi => ?_, ?_⟩
  · obtain ⟨hlt, rfl⟩ := List.getElem?_eq_some_iff.mp hi
    rw [List.getElem_ofFn]
    exact hr ⟨i, by simpa using hlt⟩
  · rw [List.forall₂_iff_get]
    refine ⟨by rw [List.length_ofFn, hlen], fun i hi hi' => ?_⟩
    have hi'' : i < fes.length := hlen ▸ hi'
    have heq := hobj ⟨i, hi''⟩
    rw [List.getElem?_eq_getElem hi', Option.some.injEq] at heq
    rw [List.get_ofFn, List.get_eq_getElem]
    exact heq ▸ hstands ⟨i, hi''⟩

theorem ofResolutions_perm {rs : List Resolution}
    (h : List.Forall₂ (fun r obj => r.StandsFor W C bases obj) rs objs) :
    ∃ resolved, List.Forall₂ (fun (d : UnresolvedDelta) o => ∃ base ∈ bases,
          base.sha1 C = d.baseSha ∧ d.applyTo W base = .ok o)
        (ParseResult.ofResolutions rs).deltas resolved ∧
      ((ParseResult.ofResolutions rs).objects ++ resolved).Perm objs := by
  induction h with
  | nil => exact ⟨[], .nil, .nil⟩
  | @cons r obj rs objs hr _ ih =>
    obtain ⟨resolved, hdeltas, hperm⟩ := ih
    cases r with
    | object o =>
      rw [Resolution.StandsFor] at hr
      subst hr
      exact ⟨resolved, hdeltas, hperm.cons o⟩
    | external baseSha deltas =>
      obtain ⟨hne, base, hbase, hsha, hstack⟩ := hr
      obtain ⟨head, chain, rfl⟩ := List.exists_cons_of_ne_nil hne
      rw [← applyTo_eq baseSha] at hstack
      exact ⟨obj :: resolved, .cons ⟨base, hbase, hsha, hstack⟩ hdeltas,
        List.perm_middle.trans (hperm.cons obj)⟩

theorem ofResolutions_nil_bases {rs : List Resolution}
    (h : List.Forall₂ (fun r obj => r.StandsFor W C [] obj) rs objs) :
    (ParseResult.ofResolutions rs).deltas = [] ∧ (ParseResult.ofResolutions rs).objects = objs := by
  induction h with
  | nil => exact ⟨rfl, rfl⟩
  | @cons r obj rs objs hr _ ih =>
    cases r with
    | object o =>
      rw [Resolution.StandsFor] at hr
      subst hr
      exact ⟨ih.1, congrArg _ ih.2⟩
    | external baseSha deltas =>
      obtain ⟨-, base, hbase, -⟩ := hr
      exact absurd hbase (List.not_mem_nil)

end StandsFor

/-! ## The pack -/

def Entry.payload : Entry → Bytes
  | .full _ data => data
  | .refDelta _ delta => delta
  | .ofsDelta _ delta => delta

theorem PlannedFrom.payload_le {n i : Nat} {es : List BuildEntry} {fes : List Entry}
    (h : PlannedFrom C bases objs i es fes) (hobjs : ∀ o ∈ objs, o.data.length ≤ n) :
    ∀ fe ∈ fes, fe.payload.length ≤ n := by
  induction h with
  | nil => simp
  | cons hplanned _ ih =>
    refine List.forall_mem_cons.mpr ⟨?_, ih⟩
    cases hplanned with
    | full hobj => exact hobjs _ (List.mem_of_getElem? hobj)
    | refDelta hobj _ _ _ hlt => exact hlt.le.trans (hobjs _ (List.mem_of_getElem? hobj))
    | ofsDelta hobj _ _ _ hlt => exact hlt.le.trans (hobjs _ (List.mem_of_getElem? hobj))

theorem EntriesLayout.fits {W W' : Usize} {starts : List Nat} {pos : Nat} {es : List Entry}
    {body : Bytes} (h : EntriesLayout W C starts pos es body)
    (hpos : pos + body.length ≤ 2 ^ W'.bits) (hsize : ∀ e ∈ es, e.payload.length ≤ W'.isizeMax) :
    EntriesLayout W' C starts pos es body := by
  induction h with
  | nil => exact .nil
  | @cons starts pos e es bs body he _ ih =>
    obtain ⟨hhead, hsize⟩ := List.forall_mem_cons.mp hsize
    rw [List.length_append] at hpos
    refine .cons ?_ (ih (by omega) hsize)
    have hlen := he.length_pos
    cases he with
    | full htype hheader hzlib => exact .full htype hheader ⟨hhead, hzlib.2⟩
    | refDelta hheader hzlib => exact .refDelta hheader ⟨hhead, hzlib.2⟩
    | ofsDelta hstart hheader hle _ hoffset hzlib =>
      exact .ofsDelta hstart hheader hle (by omega) hoffset ⟨hhead, hzlib.2⟩

theorem PackLayout.fits {W W' : Usize} {fes : List Entry} {pack : Bytes}
    (h : PackLayout W C fes pack) (hlen : pack.length ≤ 2 ^ W'.bits)
    (hsize : ∀ e ∈ fes, e.payload.length ≤ W'.isizeMax) : PackLayout W' C fes pack := by
  obtain ⟨hcount, version, body, trailer, hversion, hlayout, rfl⟩ := h
  refine ⟨hcount, version, body, trailer, hversion, hlayout.fits ?_ hsize, rfl⟩
  simp only [List.length_append, be32_length, magic, List.length_cons, List.length_nil] at hlen
  omega

theorem buildWithBases_layout {objects : List PackObject} (hC : C.Zlib)
    (hcount : objects.length < 2 ^ 32) (hobjects : ∀ o ∈ objects, o.data.length < 2 ^ 32)
    (hbases : ∀ o ∈ bases, o.data.length < 2 ^ 32) (htypes : ∀ o ∈ objects, IsObjType o.objType) :
    ∃ pack fes, buildWithBases .w64 C objects bases = .ok pack ∧ PackLayout .w64 C fes pack ∧
      ∀ W : Usize, (∀ o ∈ objects, o.data.length ≤ W.isizeMax) →
        (∀ fe ∈ fes, fe.payload.length ≤ W.isizeMax) ∧
        ∃ rs, rs.length = fes.length ∧ (∀ i r, rs[i]? = some r → ResolvesTo W fes i r) ∧
          List.Forall₂ (fun r obj => r.StandsFor W C bases obj) rs
            (objects.mergeSort sortsBefore) := by
  set objs := objects.mergeSort sortsBefore with hobjs
  have hmem (o : PackObject) : o ∈ objs ↔ o ∈ objects := List.mem_mergeSort
  have hlen : objs.length = objects.length := List.length_mergeSort objects
  have hlast : LastSound [] (fun _ => none) := fun _ _ h => absurd h (by simp)
  have hsize : ∀ o ∈ objs, o.data.length < 2 ^ 32 := fun o ho => hobjects o ((hmem o).mp ho)
  have hfit : ∀ o ∈ objs, o.data.length * 9 < 2 ^ Usize.w64.bits := fun o ho =>
    (Nat.mul_lt_mul_of_pos_right (hsize o ho) (by decide)).trans (by decide)
  obtain ⟨es, fes, hplan, hes, hfrom⟩ : ∃ es fes,
      planEntries .w64 C (group PackObject.objType bases) objs (fun _ => none) [] = .ok es ∧
        es.length = objs.length ∧ PlannedFrom C bases objs 0 es fes :=
    planEntries_spec hfit (pairwise_mergeSort_sortsBefore objects) hlast List.map_nil
  have hfes : fes.length = objects.length := by rw [← hfrom.length_eq, hes, hlen]
  obtain ⟨body, hwrite, hbody⟩ : ∃ body,
      writeEntries C es [] (magic ++ be32 2 ++ be32 es.length) =
          .ok (magic ++ be32 2 ++ be32 es.length ++ body) ∧
        EntriesLayout .w64 C [] 12 fes body :=
    writeEntries_spec hC hsize (fun o ho => htypes o ((hmem o).mp ho)) hfrom rfl
      (fun _ h => absurd h (by simp))
  let out := magic ++ be32 2 ++ be32 es.length ++ body
  refine ⟨out ++ (C.sha1 out).toList, fes, ?_,
    ⟨by omega, 2, body, (C.sha1 out).toList, .inl rfl, hbody, ?_⟩, fun W hmax => ?_⟩
  · rw [buildWithBases, ← hobjs, hplan, Outcome.ok_bind, hwrite, Outcome.ok_bind]
    rfl
  · rw [← hfrom.length_eq, ← List.append_assoc]
  · have hmax : ∀ o ∈ objs, o.data.length ≤ W.isizeMax := fun o ho => hmax o ((hmem o).mp ho)
    exact ⟨hfrom.payload_le hmax,
      exists_resolutions_standFor hsize hmax hbases hfrom (hfes.trans hlen.symm)⟩

/-- What is built from objects and bases is read back as the objects, some of them as deltas
against the bases: on 64 bits, and on any word size where the pack and the objects fit 32. -/
theorem parse_buildWithBases_of_fits {objects : List PackObject} (hC : C.Zlib)
    (hcount : objects.length < 2 ^ 32) (hobjects : ∀ o ∈ objects, o.data.length < 2 ^ 32)
    (hbases : ∀ o ∈ bases, o.data.length < 2 ^ 32) (htypes : ∀ o ∈ objects, IsObjType o.objType) :
    ∃ pack, buildWithBases .w64 C objects bases = .ok pack ∧
      ∀ W : Usize, W = .w64 ∨ pack.length < 2 ^ 32 ∧ (∀ o ∈ objects, o.data.length < 2 ^ 31) →
        ∃ rs, parse W C pack = .ok (ParseResult.ofResolutions rs) ∧
          List.Forall₂ (fun r obj => r.StandsFor W C bases obj) rs
            (objects.mergeSort sortsBefore) := by
  obtain ⟨pack, fes, hbuild, hlayout, hreads⟩ :=
    buildWithBases_layout hC hcount hobjects hbases htypes
  refine ⟨pack, hbuild, fun W hW => ?_⟩
  rcases hW with rfl | ⟨hpack, hdata⟩
  · obtain ⟨-, rs, hlen, hrs, hstands⟩ := hreads .w64 fun o ho =>
      (hobjects o ho).le.trans (by decide)
    exact ⟨rs, parse_packLayout hlayout hlen hrs, hstands⟩
  · obtain ⟨hsize, rs, hlen, hrs, hstands⟩ := hreads W fun o ho =>
      (Nat.le_sub_one_of_lt (hdata o ho)).trans Usize.le_isizeMax
    have hbits : 2 ^ 32 ≤ 2 ^ W.bits := Nat.pow_le_pow_right (by decide) Usize.le_bits.1
    exact ⟨rs, parse_packLayout (hlayout.fits (hpack.le.trans hbits) hsize) hlen hrs, hstands⟩

theorem parse_buildWithBases {objects : List PackObject} (hC : C.Zlib)
    (hcount : objects.length < 2 ^ 32) (hobjects : ∀ o ∈ objects, o.data.length < 2 ^ 32)
    (hbases : ∀ o ∈ bases, o.data.length < 2 ^ 32) (htypes : ∀ o ∈ objects, IsObjType o.objType) :
    ∃ pack r resolved, buildWithBases .w64 C objects bases = .ok pack ∧ parse .w64 C pack = .ok r ∧
      List.Forall₂ (fun (d : UnresolvedDelta) o => ∃ base ∈ bases,
        base.sha1 C = d.baseSha ∧ d.applyTo .w64 base = .ok o) r.deltas resolved ∧
      (r.objects ++ resolved).Perm objects := by
  obtain ⟨pack, hbuild, hreads⟩ := parse_buildWithBases_of_fits hC hcount hobjects hbases htypes
  obtain ⟨rs, hparse, hstands⟩ := hreads .w64 (.inl rfl)
  obtain ⟨resolved, hdeltas, hperm⟩ := ofResolutions_perm hstands
  exact ⟨pack, _, resolved, hbuild, hparse, hdeltas, hperm.trans (List.mergeSort_perm _ _)⟩

theorem parse_build {objects : List PackObject} (hC : C.Zlib) (hcount : objects.length < 2 ^ 32)
    (hobjects : ∀ o ∈ objects, o.data.length < 2 ^ 32)
    (htypes : ∀ o ∈ objects, IsObjType o.objType) :
    ∃ pack, build .w64 C objects = .ok pack ∧
      parse .w64 C pack = .ok { objects := objects.mergeSort sortsBefore, deltas := [] } := by
  have hbases : ∀ o ∈ ([] : List PackObject), o.data.length < 2 ^ 32 := nofun
  obtain ⟨pack, hbuild, hreads⟩ := parse_buildWithBases_of_fits hC hcount hobjects hbases htypes
  obtain ⟨rs, hparse, hstands⟩ := hreads .w64 (.inl rfl)
  obtain ⟨hdeltas, hsorted⟩ := ofResolutions_nil_bases hstands
  refine ⟨pack, hbuild, ?_⟩
  rw [hparse, ← hdeltas, ← hsorted]

def UnresolvedDelta.resolveIn (C : Crates) (bases : List PackObject) (d : UnresolvedDelta) :
    Option PackObject := do
  let base ← bases.find? fun base => base.sha1 C = d.baseSha
  (d.applyTo .w64 base).toOption

theorem resolveIn_of_mem {d : UnresolvedDelta} {base o : PackObject}
    (hsha : Set.InjOn (PackObject.sha1 C) {o | o ∈ bases}) (hbase : base ∈ bases)
    (hd : base.sha1 C = d.baseSha) (happly : d.applyTo .w64 base = .ok o) :
    d.resolveIn C bases = some o := by
  have hfind : bases.find? (fun base => decide (base.sha1 C = d.baseSha)) = some base := by
    rcases h : bases.find? (fun base => decide (base.sha1 C = d.baseSha)) with _ | other
    · exact absurd hd (by simpa using List.find?_eq_none.mp h base hbase)
    · have heq : other.sha1 C = d.baseSha := by simpa using List.find?_some h
      rw [h, hsha (List.mem_of_find?_eq_some h) hbase (heq.trans hd.symm)]
  rw [UnresolvedDelta.resolveIn, hfind, Option.bind_eq_bind, Option.bind_some, happly]
  rfl

/-- Build, then parse: the objects of the result, together with what its deltas give over the
bases, are the objects that went in. Without bases they come out sorted and without deltas. -/
theorem build_round_trip (C : Crates) (hC : C.Zlib) (objects bases : List PackObject)
    (hcount : objects.length < 2 ^ 32) (hobjects : ∀ o ∈ objects, o.data.length < 2 ^ 32)
    (hbases : ∀ o ∈ bases, o.data.length < 2 ^ 32) (htypes : ∀ o ∈ objects, IsObjType o.objType)
    (hsha : Set.InjOn (PackObject.sha1 C) {o | o ∈ objects ∨ o ∈ bases}) :
    ∃ pack r resolved, buildWithBases .w64 C objects bases = .ok pack ∧ parse .w64 C pack = .ok r ∧
      r.deltas.map (UnresolvedDelta.resolveIn C bases) = resolved.map some ∧
      (r.objects ++ resolved).Perm objects ∧
      (bases = [] → r.deltas = [] ∧
        r.objects = objects.mergeSort fun a b => decide (ByTypeThenSize a b)) := by
  obtain ⟨pack, hbuild, hreads⟩ := parse_buildWithBases_of_fits hC hcount hobjects hbases htypes
  obtain ⟨rs, hparse, hstands⟩ := hreads .w64 (.inl rfl)
  obtain ⟨resolved, hdeltas, hperm⟩ := ofResolutions_perm hstands
  refine ⟨pack, _, resolved, hbuild, hparse, ?_,
    hperm.trans (List.mergeSort_perm _ _), ?_⟩
  · rw [← List.forall₂_eq_eq_eq, List.forall₂_map_left_iff, List.forall₂_map_right_iff]
    refine hdeltas.imp fun d o hd => ?_
    obtain ⟨base, hbase, hd, happly⟩ := hd
    exact resolveIn_of_mem (hsha.mono fun _ h => .inr h) hbase hd happly
  · rintro rfl
    rw [← sortsBefore_eq]
    exact ofResolutions_nil_bases hstands

def sampleBlob (n : Nat) (last : UInt8) : PackObject where
  objType := "blob"
  data := List.replicate n 7 ++ [last]

theorem build_round_trip_sample :
    ∃ pack r resolved,
      buildWithBases .w64 referenceCrates [sampleBlob 40 2, sampleBlob 40 3] [sampleBlob 40 1] =
        .ok pack ∧
      parse .w64 referenceCrates pack = .ok r ∧
      r.deltas.map (UnresolvedDelta.resolveIn referenceCrates [sampleBlob 40 1]) =
        resolved.map some ∧
      (r.objects ++ resolved).Perm [sampleBlob 40 2, sampleBlob 40 3] := by
  obtain ⟨pack, r, resolved, hbuild, hparse, hdeltas, hperm, -⟩ :=
    build_round_trip referenceCrates referenceCrates_zlib [sampleBlob 40 2, sampleBlob 40 3]
      [sampleBlob 40 1] (by decide) (by decide) (by decide) (by decide) (by
        have hinj : ∀ a ∈ [sampleBlob 40 2, sampleBlob 40 3, sampleBlob 40 1],
            ∀ b ∈ [sampleBlob 40 2, sampleBlob 40 3, sampleBlob 40 1],
              a.sha1 referenceCrates = b.sha1 referenceCrates → a = b := by
          decide +kernel
        intro a ha b hb
        exact hinj a (by simpa [or_assoc] using ha) b (by simpa [or_assoc] using hb))
  exact ⟨pack, r, resolved, hbuild, hparse, hdeltas, hperm⟩

end NearGit.Packfile
