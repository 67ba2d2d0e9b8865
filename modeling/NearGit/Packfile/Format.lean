import NearGit.Packfile.Parse

/-! The pack format by itself: what the entries of a pack are, which bytes lay them out, and
what an entry resolves to. Nothing here looks at how `parse` works. -/

namespace NearGit.Packfile
open Lib

/-- An entry of a pack; an OFS_DELTA names its base by its index in the pack. -/
inductive Entry
  | full (objType : String) (data : Bytes)
  | refDelta (baseSha : Vector UInt8 20) (delta : Bytes)
  | ofsDelta (base : Nat) (delta : Bytes)

/-! ## Layout -/

def IsEntryHeader (typeBits size : Nat) (bs : Bytes) : Prop :=
  ∃ first more, bs = first :: more ∧ Varint.IsVarint bs ∧ bs.length ≤ 10 ∧
    first.toNat / 16 % 8 = typeBits ∧ first.toNat % 16 + 16 * Varint.leValue more = size

def IsOfsOffset (offset : Nat) (bs : Bytes) : Prop :=
  Varint.IsVarint bs ∧ Varint.ofsValue bs = offset ∧ offset < 2 ^ 64

/-- A zlib stream of `x`: the decoder gives `x` and stops at the end of the stream. -/
def IsZlib (W : Usize) (C : Crates) (x stream : Bytes) : Prop :=
  x.length ≤ W.isizeMax ∧ ∀ rest, C.inflate (stream ++ rest) = .ok (x, stream.length)

/-- The bytes of one entry at `pos`, behind entries with the given starts. Declared sizes are
the inflated lengths, and an OFS_DELTA points back to the start of an earlier entry. -/
inductive EntryLayout (W : Usize) (C : Crates) (starts : List Nat) (pos : Nat) :
    Entry → Bytes → Prop
  | full {typeBits : Nat} {objType : String} {data header stream : Bytes} :
      typeFromBits typeBits = some objType → IsEntryHeader typeBits data.length header →
      IsZlib W C data stream → EntryLayout W C starts pos (.full objType data) (header ++ stream)
  | refDelta {baseSha : Vector UInt8 20} {delta header stream : Bytes} :
      IsEntryHeader 7 delta.length header → IsZlib W C delta stream →
      EntryLayout W C starts pos (.refDelta baseSha delta) (header ++ (baseSha.toList ++ stream))
  | ofsDelta {base start : Nat} {delta header offset stream : Bytes} :
      starts[base]? = some start → IsEntryHeader 6 delta.length header →
      start ≤ pos → pos - start < 2 ^ W.bits → IsOfsOffset (pos - start) offset →
      IsZlib W C delta stream →
      EntryLayout W C starts pos (.ofsDelta base delta) (header ++ (offset ++ stream))

inductive EntriesLayout (W : Usize) (C : Crates) : List Nat → Nat → List Entry → Bytes → Prop
  | nil {starts : List Nat} {pos : Nat} : EntriesLayout W C starts pos [] []
  | cons {starts : List Nat} {pos : Nat} {e : Entry} {es : List Entry} {bs rest : Bytes} :
      EntryLayout W C starts pos e bs →
      EntriesLayout W C (starts ++ [pos]) (pos + bs.length) es rest →
      EntriesLayout W C starts pos (e :: es) (bs ++ rest)

/-- A version 2 or 3 pack with the given entries; the trailer is not looked at. -/
def PackLayout (W : Usize) (C : Crates) (entries : List Entry) (data : Bytes) : Prop :=
  entries.length < 2 ^ 32 ∧ ∃ version body trailer, (version = 2 ∨ version = 3) ∧
    EntriesLayout W C [] 12 entries body ∧
    data = magic ++ be32 version ++ be32 entries.length ++ (body ++ trailer)

/-! ## Meaning -/

/-- The delta chain of an entry ends in `root`, a full object or a REF_DELTA. -/
inductive ChainRoot (entries : List Entry) : Nat → Entry → Prop
  | full {i : Nat} {objType : String} {data : Bytes} :
      entries[i]? = some (.full objType data) → ChainRoot entries i (.full objType data)
  | refDelta {i : Nat} {baseSha : Vector UInt8 20} {delta : Bytes} :
      entries[i]? = some (.refDelta baseSha delta) → ChainRoot entries i (.refDelta baseSha delta)
  | ofsDelta {i base : Nat} {delta : Bytes} {root : Entry} :
      entries[i]? = some (.ofsDelta base delta) → ChainRoot entries base root →
      ChainRoot entries i root

def EndsFull (entries : List Entry) (i : Nat) : Prop :=
  ∃ objType data, ChainRoot entries i (.full objType data)

def EndsRef (entries : List Entry) (i : Nat) (baseSha : Vector UInt8 20) : Prop :=
  ∃ delta, ChainRoot entries i (.refDelta baseSha delta)

/-- Entry `i` stands for `obj`, by recursion along its chain, when `foreign` gives the objects
outside the pack. -/
inductive Resolves (W : Usize) (entries : List Entry) (foreign : String → Option PackObject) :
    Nat → PackObject → Prop
  | full {i : Nat} {objType : String} {data : Bytes} :
      entries[i]? = some (.full objType data) → Resolves W entries foreign i ⟨objType, data⟩
  | refDelta {i : Nat} {baseSha : Vector UInt8 20} {delta data : Bytes} {base : PackObject} :
      entries[i]? = some (.refDelta baseSha delta) →
      foreign (Hex.ofBytes baseSha.toList) = some base → applyDelta W base.data delta = .ok data →
      Resolves W entries foreign i ⟨base.objType, data⟩
  | ofsDelta {i j : Nat} {delta data : Bytes} {base : PackObject} :
      entries[i]? = some (.ofsDelta j delta) → Resolves W entries foreign j base →
      applyDelta W base.data delta = .ok data → Resolves W entries foreign i ⟨base.objType, data⟩

/-- The object an unresolved delta stands for once its base is at hand: `deltaData`, then
`chain` in order. -/
def UnresolvedDelta.applyTo (W : Usize) (d : UnresolvedDelta) (base : PackObject) :
    Outcome PackObject := do
  let current ← applyDelta W base.data d.deltaData
  let current ← d.chain.foldlM (applyDelta W) current
  return { objType := base.objType, data := current }

/-- What `parse` keeps of an entry: the steps of `resolve`, by index and without a cache. -/
inductive ResolvesTo (W : Usize) (entries : List Entry) : Nat → Resolution → Prop
  | full {i : Nat} {objType : String} {data : Bytes} :
      entries[i]? = some (.full objType data) → ResolvesTo W entries i (.object ⟨objType, data⟩)
  | refDelta {i : Nat} {baseSha : Vector UInt8 20} {delta : Bytes} :
      entries[i]? = some (.refDelta baseSha delta) →
      ResolvesTo W entries i (.external (Hex.ofBytes baseSha.toList) [delta])
  | ofsDelta {i j : Nat} {delta : Bytes} {base r : Resolution} :
      entries[i]? = some (.ofsDelta j delta) → ResolvesTo W entries j base →
      base.stack W delta = .ok r → ResolvesTo W entries i r

/-! ## Reading back one entry -/

theorem readEntryHeader_mod {typeBits size : Nat} {header : Bytes}
    (h : IsEntryHeader typeBits size header) (rest : Bytes) :
    readEntryHeader (header ++ rest) = .ok (typeBits, size % 2 ^ 64, header.length) := by
  obtain ⟨first, more, rfl, hvarint, hlen, htype, hvalue⟩ := h
  have hbits : ((first >>> 4) &&& 0x07).toNat = typeBits := by
    rw [Byte.and_07_toNat, Byte.shiftRight_4_toNat, htype]
  rw [List.cons_append, readEntryHeader]
  simp only [hbits, Byte.and_0f_toNat]
  rcases eq_or_ne more [] with rfl | hne
  · rw [if_neg (not_not.mpr ((Byte.and_80_eq_zero_iff first).mpr hvarint))]
    simp only [Varint.leValue] at hvalue
    have hsize : first.toNat % 16 = size % 2 ^ 64 := by omega
    rw [hsize]
    rfl
  · obtain ⟨hfirst, hmore⟩ := (Varint.isVarint_cons hne).mp hvarint
    have hlow : first.toNat % 16 < 2 ^ 4 := Nat.mod_lt _ (by decide)
    rw [if_pos ((Byte.and_80_ne_zero_iff first).mpr hfirst),
      Varint.read_append _ hmore rest 1 hlow (by
        simp only [List.length_cons] at hlen
        omega)]
    have hsum : first.toNat % 16 + Varint.leValue more * 2 ^ 4 = size := by
      rw [← hvalue]
      ring
    rw [hsum, List.length_cons, Nat.add_comm 1]
    rfl

theorem readEntryHeader_append {typeBits size : Nat} {header : Bytes}
    (h : IsEntryHeader typeBits size header) (hsize : size < 2 ^ 64) (rest : Bytes) :
    readEntryHeader (header ++ rest) = .ok (typeBits, size, header.length) := by
  rw [readEntryHeader_mod h, Nat.mod_eq_of_lt hsize]

def ContOverflows (offset : Nat) (bs : Bytes) : Prop :=
  ∃ front rest, bs = front ++ rest ∧ rest ≠ [] ∧ Varint.AllHigh front ∧
    Varint.ofsFold offset front % 2 ^ 64 = 2 ^ 64 - 1

theorem ContOverflows.cons {offset : Nat} {b : UInt8} {bs : Bytes} (hb : 128 ≤ b.toNat)
    (h : ContOverflows ((offset + 1) * 128 + b.toNat % 128) bs) :
    ContOverflows offset (b :: bs) := by
  obtain ⟨front, rest, rfl, hrest, hhigh, hvalue⟩ := h
  exact ⟨b :: front, rest, rfl, hrest, List.forall_mem_cons.mpr ⟨hb, hhigh⟩, hvalue⟩

theorem succ_lt_of_not_contOverflows {offset : Nat} {b : UInt8} {bs : Bytes}
    (h : ¬ ContOverflows offset (b :: bs)) : offset % 2 ^ 64 + 1 < 2 ^ 64 := by
  have hne : offset % 2 ^ 64 ≠ 2 ^ 64 - 1 := fun heq =>
    h ⟨[], b :: bs, rfl, by simp, fun _ hb => absurd hb List.not_mem_nil, heq⟩
  omega

theorem or_group_mod (offset : Nat) (b : UInt8) :
    ((offset % 2 ^ 64 + 1) <<< 7) % 2 ^ 64 ||| (b &&& 0x7f).toNat =
      ((offset + 1) * 128 + b.toNat % 128) % 2 ^ 64 := by
  have hshift : ((offset % 2 ^ 64 + 1) <<< 7) % 2 ^ 64 = ((offset + 1) % 2 ^ 57) <<< 7 := by
    simp only [Nat.shiftLeft_eq]
    omega
  rw [hshift, Nat.or_comm, Byte.and_7f_toNat,
    or_shiftLeft_eq_add _ (show b.toNat % 128 < 2 ^ 7 by omega)]
  omega

theorem readOfsCont_mod {bs : Bytes} (hbs : Varint.IsVarint bs) (rest : Bytes) :
    ∀ {offset : Nat} (used : Nat), ¬ ContOverflows offset bs →
      readOfsCont (offset % 2 ^ 64) used (bs ++ rest) =
        .ok (Varint.ofsFold offset bs % 2 ^ 64, used + bs.length) := by
  induction bs with
  | nil => exact hbs.elim
  | cons b bs ih =>
    intro offset used hover
    rw [List.cons_append, readOfsCont, if_pos (succ_lt_of_not_contOverflows hover)]
    simp only [or_group_mod]
    rcases eq_or_ne bs [] with rfl | hne
    · rw [if_neg (not_not.mpr ((Byte.and_80_eq_zero_iff b).mpr hbs))]
      rfl
    · obtain ⟨hb, hbs⟩ := (Varint.isVarint_cons hne).mp hbs
      rw [if_pos ((Byte.and_80_ne_zero_iff b).mpr hb),
        ih hbs _ fun hcont => hover (hcont.cons hb), List.length_cons, Varint.ofsFold_cons]
      congr 2
      omega

theorem not_contOverflows_of_lt {offset : Nat} {bs : Bytes}
    (h : Varint.ofsFold offset bs < 2 ^ 64) : ¬ ContOverflows offset bs := by
  rintro ⟨front, rest, rfl, hrest, -, hvalue⟩
  obtain ⟨b, rest, rfl⟩ := List.exists_cons_of_ne_nil hrest
  have hle := Varint.le_ofsFold ((Varint.ofsFold offset front + 1) * 128 + b.toNat % 128) rest
  rw [Varint.ofsFold_append, Varint.ofsFold_cons] at h
  omega

theorem readOfsCont_append {bs : Bytes} (hbs : Varint.IsVarint bs) (rest : Bytes) {offset : Nat}
    (used : Nat) (hlt : Varint.ofsFold offset bs < 2 ^ 64) :
    readOfsCont offset used (bs ++ rest) =
      .ok (Varint.ofsFold offset bs, used + bs.length) := by
  have hread := readOfsCont_mod hbs rest used (not_contOverflows_of_lt hlt)
  rwa [Nat.mod_eq_of_lt hlt, Nat.mod_eq_of_lt ((Varint.le_ofsFold offset bs).trans_lt hlt)] at hread

theorem readOfsOffset_append {offset : Nat} {bs : Bytes} (h : IsOfsOffset offset bs)
    (rest : Bytes) : readOfsOffset (bs ++ rest) = .ok (offset, bs.length) := by
  obtain ⟨hvarint, hvalue, hlt⟩ := h
  cases bs with
  | nil => exact hvarint.elim
  | cons b bs =>
    rw [Varint.ofsValue] at hvalue
    rw [List.cons_append, readOfsOffset, Byte.and_7f_toNat]
    rcases eq_or_ne bs [] with rfl | hne
    · rw [if_neg (not_not.mpr ((Byte.and_80_eq_zero_iff b).mpr hvarint))]
      rw [Varint.ofsFold_nil] at hvalue
      rw [hvalue]
      rfl
    · obtain ⟨hb, hbs⟩ := (Varint.isVarint_cons hne).mp hvarint
      rw [if_pos ((Byte.and_80_ne_zero_iff b).mpr hb),
        readOfsCont_append hbs rest 1 (hvalue ▸ hlt), hvalue, List.length_cons, Nat.add_comm 1]

theorem readZlib_append {W : Usize} {C : Crates} {x stream : Bytes} (h : IsZlib W C x stream)
    (what : String)
    (rest : Bytes) : readZlib W C x.length what (stream ++ rest) = .ok (x, stream.length) := by
  rw [readZlib, Usize.cast_of_le h.1, VecU8.withCapacity_of_le h.1, Outcome.ok_bind, h.2,
    Outcome.ofExcept_ok]

/-- What `parse` reads for an entry: the same, with the base of an OFS_DELTA by position. -/
inductive ReadAs (starts : List Nat) : Entry → ParsedEntry → Prop
  | full {objType : String} {data : Bytes} :
      ReadAs starts (.full objType data) (.object ⟨objType, data⟩)
  | refDelta {baseSha : Vector UInt8 20} {delta : Bytes} :
      ReadAs starts (.refDelta baseSha delta)
        (.refDelta { baseSha := Hex.ofBytes baseSha.toList, deltaData := delta, chain := [] })
  | ofsDelta {base start : Nat} {delta : Bytes} : starts[base]? = some start →
      ReadAs starts (.ofsDelta base delta) (.ofsDelta start delta)

theorem parseEntry_append {W : Usize} {C : Crates} {starts : List Nat} {pos : Nat} {e : Entry}
    {bs : Bytes}
    (h : EntryLayout W C starts pos e bs) (rest : Bytes) :
    ∃ p, parseEntry W C pos (bs ++ rest) = .ok (p, bs.length) ∧ ReadAs starts e p := by
  have hsize {x : Bytes} (hx : x.length ≤ W.isizeMax) : x.length < 2 ^ 64 :=
    hx.trans_lt Usize.isizeMax_lt_64
  cases h with
  | @full typeBits objType data header stream htype hheader hzlib =>
    refine ⟨_, ?_, .full⟩
    rw [List.append_assoc, parseEntry, readEntryHeader_append hheader (hsize hzlib.1),
      Outcome.ok_bind]
    simp only [List.drop_left]
    split
    · simp [typeFromBits] at htype
    · simp [typeFromBits] at htype
    · rw [htype]
      simp only [readZlib_append hzlib, Outcome.ok_bind, Outcome.pure_eq, List.length_append]
  | @refDelta baseSha delta header stream hheader hzlib =>
    refine ⟨_, ?_, .refDelta⟩
    have hsha : baseSha.toList.length = 20 := by simp
    rw [List.append_assoc, parseEntry, readEntryHeader_append hheader (hsize hzlib.1),
      Outcome.ok_bind]
    simp only [List.drop_left, List.append_assoc]
    rw [if_neg (by simp), List.drop_left' hsha, readZlib_append hzlib, Outcome.ok_bind,
      List.take_left' hsha]
    simp [Nat.add_assoc]
  | @ofsDelta base start delta header offset stream hstart hheader hle hlt hoffset hzlib =>
    refine ⟨_, ?_, .ofsDelta hstart⟩
    rw [List.append_assoc, parseEntry, readEntryHeader_append hheader (hsize hzlib.1),
      Outcome.ok_bind]
    simp only [List.drop_left, List.append_assoc]
    rw [readOfsOffset_append hoffset, Outcome.ok_bind, Usize.cast_of_lt hlt, if_neg (by omega)]
    simp only [List.drop_left]
    rw [readZlib_append hzlib, Outcome.ok_bind, Nat.sub_sub_self hle]
    simp [Nat.add_assoc]

end NearGit.Packfile
