import NearGit.Packfile.Format

/-! Any bytes at all in front of the entry loop: the entries it reads, which are more than the
well-formed ones, and the bytes on which it panics. -/

namespace NearGit.Packfile
open Lib

variable {W : Usize} {C : Crates}

/-! ## One entry -/

def OffsetOverflows : Bytes → Prop
  | [] => False
  | b :: bs => 128 ≤ b.toNat ∧ ContOverflows (b.toNat % 128) bs

def IsReadOffset (offset : Nat) (bs : Bytes) : Prop :=
  Varint.IsVarint bs ∧ ¬ OffsetOverflows bs ∧ Varint.ofsValue bs % 2 ^ 64 = offset

def HostileOffset (bs : Bytes) : Prop := Varint.AllHigh bs ∨ OffsetOverflows bs

/-- What the loop takes for an entry at `pos`. The declared size is read modulo 2^64 and need not
be that of the data; an OFS_DELTA may point anywhere behind `pos`. -/
inductive ReadsEntry (W : Usize) (C : Crates) (pos : Nat) :
    (bs : Bytes) → ParsedEntry → (used : Nat) → Prop
  | object {typeBits size used : Nat} {objType : String} {header rest data : Bytes} :
      typeFromBits typeBits = some objType → IsEntryHeader typeBits size header →
      W.cast (size % 2 ^ 64) ≤ W.isizeMax → C.inflate rest = .ok (data, used) →
      ReadsEntry W C pos (header ++ rest) (.object { objType, data }) (header.length + used)
  | refDelta {size used : Nat} {header baseSha rest deltaData : Bytes} :
      IsEntryHeader 7 size header → baseSha.length = 20 →
      W.cast (size % 2 ^ 64) ≤ W.isizeMax → C.inflate rest = .ok (deltaData, used) →
      ReadsEntry W C pos (header ++ (baseSha ++ rest))
        (.refDelta { baseSha := Hex.ofBytes baseSha, deltaData, chain := [] })
        (header.length + 20 + used)
  | ofsDelta {size offset used : Nat} {header ofs rest deltaData : Bytes} :
      IsEntryHeader 6 size header → IsReadOffset offset ofs → W.cast offset ≤ pos →
      W.cast (size % 2 ^ 64) ≤ W.isizeMax → C.inflate rest = .ok (deltaData, used) →
      ReadsEntry W C pos (header ++ (ofs ++ rest)) (.ofsDelta (pos - W.cast offset) deltaData)
        (header.length + ofs.length + used)

/-- After the header, the loop gets as far as the buffer of the declared size. -/
inductive ReachesBuffer (W : Usize) (pos : Nat) : (typeBits : Nat) → Bytes → Prop
  | object {typeBits : Nat} {objType : String} {rest : Bytes} :
      typeFromBits typeBits = some objType → ReachesBuffer W pos typeBits rest
  | refDelta {rest : Bytes} : 20 ≤ rest.length → ReachesBuffer W pos 7 rest
  | ofsDelta {offset : Nat} {ofs rest : Bytes} : IsReadOffset offset ofs → W.cast offset ≤ pos →
      ReachesBuffer W pos 6 (ofs ++ rest)

inductive HostileEntry (W : Usize) (pos : Nat) : Bytes → Prop
  | header {bs : Bytes} : Varint.Overlong 10 bs → HostileEntry W pos bs
  | offset {size : Nat} {header rest : Bytes} : IsEntryHeader 6 size header →
      HostileOffset rest → HostileEntry W pos (header ++ rest)
  | capacity {typeBits size : Nat} {header rest : Bytes} : IsEntryHeader typeBits size header →
      ReachesBuffer W pos typeBits rest → W.isizeMax < W.cast (size % 2 ^ 64) →
      HostileEntry W pos (header ++ rest)

theorem IsEntryHeader.length_pos {typeBits size : Nat} {header : Bytes}
    (h : IsEntryHeader typeBits size header) : 0 < header.length := by
  obtain ⟨_, _, rfl, _⟩ := h
  simp

theorem ReadsEntry.used_pos {pos : Nat} {bs : Bytes} {e : ParsedEntry} {used : Nat}
    (h : ReadsEntry W C pos bs e used) : 0 < used := by
  cases h with
  | object _ hheader _ _ => exact Nat.add_pos_left hheader.length_pos _
  | refDelta hheader _ _ _ => exact Nat.add_pos_left (Nat.add_pos_left hheader.length_pos _) _
  | ofsDelta hheader _ _ _ _ => exact Nat.add_pos_left (Nat.add_pos_left hheader.length_pos _) _

theorem ReadsEntry.ne_nil {pos : Nat} {bs : Bytes} {e : ParsedEntry} {used : Nat}
    (h : ReadsEntry W C pos bs e used) : bs ≠ [] := by
  have hheader : ∃ typeBits size header rest, IsEntryHeader typeBits size header ∧
      bs = header ++ rest := by
    cases h with
    | object _ hheader _ _ => exact ⟨_, _, _, _, hheader, rfl⟩
    | refDelta hheader _ _ _ => exact ⟨_, _, _, _, hheader, rfl⟩
    | ofsDelta hheader _ _ _ _ => exact ⟨_, _, _, _, hheader, rfl⟩
  obtain ⟨typeBits, size, header, rest, hheader, rfl⟩ := hheader
  exact List.append_ne_nil_of_left_ne_nil (List.ne_nil_of_length_pos hheader.length_pos) rest

theorem HostileEntry.ne_nil {pos : Nat} {bs : Bytes} (h : HostileEntry W pos bs) : bs ≠ [] := by
  cases h with
  | header hlong => exact List.ne_nil_of_length_pos (Nat.zero_lt_of_lt hlong.1)
  | offset hheader _ =>
    exact List.append_ne_nil_of_left_ne_nil (List.ne_nil_of_length_pos hheader.length_pos) _
  | capacity hheader _ _ =>
    exact List.append_ne_nil_of_left_ne_nil (List.ne_nil_of_length_pos hheader.length_pos) _

/-! ### The header -/

theorem isEntryHeader_of_varint {v : Bytes} (hv : Varint.IsVarint v) (hlen : v.length ≤ 10) :
    ∃ typeBits size, IsEntryHeader typeBits size v := by
  obtain ⟨first, more, rfl⟩ := List.exists_cons_of_ne_nil hv.ne_nil
  exact ⟨_, _, first, more, rfl, hv, hlen, rfl, rfl⟩

theorem readEntryHeader_overlong {bs : Bytes} (h : Varint.Overlong 10 bs) :
    readEntryHeader bs = .panic .shiftOverflow := by
  obtain ⟨hlen, hhigh⟩ := h
  obtain ⟨first, more, rfl⟩ := List.exists_cons_of_ne_nil
    (List.ne_nil_of_length_pos (Nat.zero_lt_of_lt hlen))
  obtain ⟨hfirst, hmore⟩ := List.forall_mem_cons.mp hhigh
  have hlong : Varint.Overlong 9 more := ⟨Nat.lt_of_succ_lt_succ hlen, hmore⟩
  rw [readEntryHeader]
  simp only [if_pos ((Byte.and_80_ne_zero_iff first).mpr hfirst),
    Varint.read_overlong _ hlong (show 64 ≤ 4 + 7 * 9 by decide), Outcome.panic_bind]

theorem readEntryHeader_allHigh {bs : Bytes} (hne : bs ≠ []) (hhigh : Varint.AllHigh bs)
    (hlen : bs.length ≤ 10) : ∃ e, readEntryHeader bs = .err e := by
  obtain ⟨first, more, rfl⟩ := List.exists_cons_of_ne_nil hne
  obtain ⟨hfirst, hmore⟩ := List.forall_mem_cons.mp hhigh
  rw [List.length_cons] at hlen
  rw [readEntryHeader]
  simp only [if_pos ((Byte.and_80_ne_zero_iff first).mpr hfirst),
    Varint.read_allHigh _ hmore (show 4 + 7 * more.length < 71 by omega), Outcome.err_bind]
  exact ⟨_, rfl⟩

theorem isEntryHeader_or {bs : Bytes} (hne : bs ≠ []) :
    (∃ typeBits size header rest, bs = header ++ rest ∧ IsEntryHeader typeBits size header) ∨
      Varint.Overlong 10 bs ∨ ∃ e, readEntryHeader bs = .err e := by
  rcases Varint.isVarint_or 10 bs with ⟨v, rest, rfl, hv, hlen⟩ | hlong | ⟨hhigh, hlen⟩
  · obtain ⟨typeBits, size, hheader⟩ := isEntryHeader_of_varint hv hlen
    exact .inl ⟨typeBits, size, v, rest, rfl, hheader⟩
  · exact .inr (.inl hlong)
  · exact .inr (.inr (readEntryHeader_allHigh hne hhigh hlen))

/-! ### The offset -/

theorem readOfsOffset_read {offset : Nat} {bs : Bytes} (h : IsReadOffset offset bs)
    (rest : Bytes) : readOfsOffset (bs ++ rest) = .ok (offset, bs.length) := by
  obtain ⟨hvarint, hover, rfl⟩ := h
  obtain ⟨b, bs, rfl⟩ := List.exists_cons_of_ne_nil hvarint.ne_nil
  have hlow : b.toNat % 128 % 2 ^ 64 = b.toNat % 128 :=
    Nat.mod_eq_of_lt ((Nat.mod_lt _ (by decide)).trans (by decide))
  rw [List.cons_append, readOfsOffset, Byte.and_7f_toNat]
  rcases eq_or_ne bs [] with rfl | hne
  · rw [if_neg (not_not.mpr ((Byte.and_80_eq_zero_iff b).mpr hvarint)), Varint.ofsValue,
      Varint.ofsFold_nil, hlow]
    rfl
  · obtain ⟨hb, hbs⟩ := (Varint.isVarint_cons hne).mp hvarint
    rw [if_pos ((Byte.and_80_ne_zero_iff b).mpr hb), ← hlow,
      readOfsCont_mod hbs rest 1 fun hcont => hover ⟨hb, hcont⟩, List.length_cons, Nat.add_comm 1]
    rfl

theorem readOfsCont_hostile {offset : Nat} {bs : Bytes} (used : Nat)
    (h : Varint.AllHigh bs ∨ ContOverflows offset bs) :
    ∃ why, readOfsCont (offset % 2 ^ 64) used bs = .panic why := by
  induction bs generalizing offset used with
  | nil => exact ⟨_, rfl⟩
  | cons b bs ih =>
    rw [readOfsCont]
    rcases Nat.lt_or_ge (offset % 2 ^ 64 + 1) (2 ^ 64) with hlt | hge
    · have hrest : 128 ≤ b.toNat ∧ (Varint.AllHigh bs ∨
          ContOverflows ((offset + 1) * 128 + b.toNat % 128) bs) := by
        rcases h with hhigh | ⟨front, rest, heq, hrest, hhigh, hvalue⟩
        · obtain ⟨hb, hbs⟩ := List.forall_mem_cons.mp hhigh
          exact ⟨hb, .inl hbs⟩
        · rcases front with _ | ⟨b', front⟩
          · rw [Varint.ofsFold_nil] at hvalue
            omega
          · obtain ⟨rfl, rfl⟩ := List.cons.inj heq
            obtain ⟨hb, hfront⟩ := List.forall_mem_cons.mp hhigh
            exact ⟨hb, .inr ⟨front, rest, rfl, hrest, hfront, hvalue⟩⟩
      rw [if_pos hlt]
      simp only [or_group_mod, if_pos ((Byte.and_80_ne_zero_iff b).mpr hrest.1)]
      exact ih _ hrest.2
    · rw [if_neg (not_lt.mpr hge)]
      exact ⟨_, rfl⟩

theorem readOfsOffset_hostile {bs : Bytes} (h : HostileOffset bs) :
    ∃ why, readOfsOffset bs = .panic why := by
  rcases bs with _ | ⟨b, bs⟩
  · exact ⟨_, rfl⟩
  · have hrest : 128 ≤ b.toNat ∧ (Varint.AllHigh bs ∨ ContOverflows (b.toNat % 128) bs) := by
      rcases h with hhigh | ⟨hb, hcont⟩
      · exact (List.forall_mem_cons.mp hhigh).imp_right .inl
      · exact ⟨hb, .inr hcont⟩
    have hlow : b.toNat % 128 % 2 ^ 64 = b.toNat % 128 :=
      Nat.mod_eq_of_lt ((Nat.mod_lt _ (by decide)).trans (by decide))
    rw [readOfsOffset, if_pos ((Byte.and_80_ne_zero_iff b).mpr hrest.1), Byte.and_7f_toNat, ← hlow]
    exact readOfsCont_hostile 1 hrest.2

theorem isReadOffset_or (bs : Bytes) :
    (∃ offset ofs rest, bs = ofs ++ rest ∧ IsReadOffset offset ofs) ∨ HostileOffset bs := by
  rcases Varint.isVarint_or bs.length bs with ⟨v, rest, rfl, hv, -⟩ | ⟨hlen, -⟩ | ⟨hhigh, -⟩
  · by_cases hover : OffsetOverflows v
    · obtain ⟨b, bs, rfl⟩ := List.exists_cons_of_ne_nil hv.ne_nil
      obtain ⟨hb, front, more, rfl, hmore, hhigh, hvalue⟩ := hover
      exact .inr (.inr ⟨hb, front, more ++ rest, by simp, by simp [hmore], hhigh, hvalue⟩)
    · exact .inl ⟨_, v, rest, rfl, hv, hover, rfl⟩
  · exact absurd hlen (lt_irrefl _)
  · exact .inr (.inl hhigh)

/-! ### The three kinds of entries -/

theorem readZlib_of_inflate {size : Nat} {rest data : Bytes} {used : Nat} (what : String)
    (hsize : W.cast size ≤ W.isizeMax) (h : C.inflate rest = .ok (data, used)) :
    readZlib W C size what rest = .ok (data, used) := by
  rw [readZlib, VecU8.withCapacity_of_le hsize, Outcome.ok_bind, h, Outcome.ofExcept_ok]

theorem readZlib_of_lt {size : Nat} (what : String) (rest : Bytes)
    (h : W.isizeMax < W.cast size) : readZlib W C size what rest = .panic .capacityOverflow := by
  rw [readZlib, VecU8.withCapacity_of_lt h, Outcome.panic_bind]

theorem readZlib_of_error {size : Nat} {rest : Bytes} {e : String} (what : String)
    (hsize : W.cast size ≤ W.isizeMax) (h : C.inflate rest = .error e) :
    ∃ e, readZlib W C size what rest = .err e := by
  rw [readZlib, VecU8.withCapacity_of_le hsize, Outcome.ok_bind, h]
  exact ⟨_, rfl⟩

theorem parseEntry_object {pos typeBits size : Nat} {header rest : Bytes} {objType : String}
    (htype : typeFromBits typeBits = some objType) (hheader : IsEntryHeader typeBits size header) :
    parseEntry W C pos (header ++ rest) = (do
      let (decompressed, totalIn) ← readZlib W C (size % 2 ^ 64) "" rest
      return (.object { objType, data := decompressed }, header.length + totalIn)) := by
  rw [parseEntry, readEntryHeader_mod hheader, Outcome.ok_bind]
  simp only [List.drop_left]
  split
  · simp [typeFromBits] at htype
  · simp [typeFromBits] at htype
  · rw [htype]

theorem parseEntry_refDelta {pos size : Nat} {header rest : Bytes}
    (hheader : IsEntryHeader 7 size header) :
    parseEntry W C pos (header ++ rest) =
      if rest.length < 20 then .err "unexpected end of packfile in ref_delta base SHA"
      else do
        let baseSha := Hex.ofBytes (rest.take 20)
        let (deltaData, totalIn) ← readZlib W C (size % 2 ^ 64) " for delta" (rest.drop 20)
        return (.refDelta { baseSha, deltaData, chain := [] }, header.length + 20 + totalIn) := by
  rw [parseEntry, readEntryHeader_mod hheader, Outcome.ok_bind]
  simp only [List.drop_left]

theorem parseEntry_ofsDelta {pos size : Nat} {header rest : Bytes}
    (hheader : IsEntryHeader 6 size header) :
    parseEntry W C pos (header ++ rest) = (do
      let (offset, ofsUsed) ← readOfsOffset rest
      if pos < W.cast offset then
        .err s!"ofs_delta offset {offset} exceeds object position {pos}"
      else
        let basePos := pos - W.cast offset
        let (deltaData, totalIn) ← readZlib W C (size % 2 ^ 64) " for ofs_delta" (rest.drop ofsUsed)
        return (.ofsDelta basePos deltaData, header.length + ofsUsed + totalIn)) := by
  rw [parseEntry, readEntryHeader_mod hheader, Outcome.ok_bind]
  simp only [List.drop_left]

theorem parseEntry_unknown {pos typeBits size : Nat} {header rest : Bytes}
    (hheader : IsEntryHeader typeBits size header) (h7 : typeBits ≠ 7) (h6 : typeBits ≠ 6)
    (htype : typeFromBits typeBits = none) :
    parseEntry W C pos (header ++ rest) = .err s!"unknown object type: {typeBits}" := by
  rw [parseEntry, readEntryHeader_mod hheader, Outcome.ok_bind]
  simp only [htype]

theorem ReadsEntry.parseEntry_eq {pos : Nat} {bs : Bytes} {e : ParsedEntry} {used : Nat}
    (h : ReadsEntry W C pos bs e used) : parseEntry W C pos bs = .ok (e, used) := by
  cases h with
  | object htype hheader hsize hinflate =>
    rw [parseEntry_object htype hheader, readZlib_of_inflate _ hsize hinflate]
    rfl
  | refDelta hheader hsha hsize hinflate =>
    rw [parseEntry_refDelta hheader, if_neg (by simp [hsha]), List.drop_left' hsha,
      List.take_left' hsha, readZlib_of_inflate _ hsize hinflate]
    rfl
  | ofsDelta hheader hofs hle hsize hinflate =>
    rw [parseEntry_ofsDelta hheader, readOfsOffset_read hofs, Outcome.ok_bind]
    simp only [List.drop_left, if_neg (not_lt.mpr hle)]
    rw [readZlib_of_inflate _ hsize hinflate]
    rfl

theorem HostileEntry.parseEntry_eq {pos : Nat} {bs : Bytes} (h : HostileEntry W pos bs) :
    ∃ why, parseEntry W C pos bs = .panic why := by
  cases h with
  | header hlong =>
    exact ⟨_, by rw [parseEntry, readEntryHeader_overlong hlong, Outcome.panic_bind]⟩
  | offset hheader hofs =>
    obtain ⟨why, hwhy⟩ := readOfsOffset_hostile hofs
    exact ⟨why, by rw [parseEntry_ofsDelta hheader, hwhy, Outcome.panic_bind]⟩
  | capacity hheader hbuffer hsize =>
    refine ⟨.capacityOverflow, ?_⟩
    cases hbuffer with
    | object htype =>
      rw [parseEntry_object htype hheader, readZlib_of_lt _ _ hsize, Outcome.panic_bind]
    | refDelta hlen =>
      rw [parseEntry_refDelta hheader, if_neg (not_lt.mpr hlen), readZlib_of_lt _ _ hsize]
      rfl
    | ofsDelta hofs hle =>
      rw [parseEntry_ofsDelta hheader, readOfsOffset_read hofs, Outcome.ok_bind]
      simp only [if_neg (not_lt.mpr hle)]
      rw [readZlib_of_lt _ _ hsize, Outcome.panic_bind]

theorem readZlib_or (size : Nat) (what : String) (rest : Bytes) :
    (W.cast size ≤ W.isizeMax ∧ ∃ data used, C.inflate rest = .ok (data, used)) ∨
      W.isizeMax < W.cast size ∨
      ∃ e, readZlib W C size what rest = .err e := by
  rcases le_or_gt (W.cast size) W.isizeMax with hle | hlt
  · rcases hinflate : C.inflate rest with e | ⟨data, used⟩
    · exact .inr (.inr (readZlib_of_error what hle hinflate))
    · exact .inl ⟨hle, data, used, rfl⟩
  · exact .inr (.inl hlt)

def EntrySettles (W : Usize) (C : Crates) (pos : Nat) (bs : Bytes) : Prop :=
  (∃ e used, ReadsEntry W C pos bs e used) ∨ HostileEntry W pos bs ∨
    ∃ e, parseEntry W C pos bs = .err e

theorem entrySettles_refDelta (pos : Nat) {size : Nat} {header : Bytes}
    (hheader : IsEntryHeader 7 size header) (rest : Bytes) :
    EntrySettles W C pos (header ++ rest) := by
  rcases lt_or_ge rest.length 20 with hlt | hge
  · exact .inr (.inr ⟨_, by rw [parseEntry_refDelta hheader, if_pos hlt]⟩)
  obtain ⟨baseSha, rest, rfl, hsha⟩ : ∃ front back, rest = front ++ back ∧ front.length = 20 :=
    ⟨rest.take 20, rest.drop 20, (List.take_append_drop 20 rest).symm,
      List.length_take_of_le hge⟩
  rcases readZlib_or (W := W) (C := C) (size % 2 ^ 64) " for delta" rest with
    ⟨hsize, data, used, hinflate⟩ | hsize | ⟨e, he⟩
  · exact .inl ⟨_, _, .refDelta hheader hsha hsize hinflate⟩
  · exact .inr (.inl (.capacity hheader (.refDelta hge) hsize))
  · refine .inr (.inr ⟨e, ?_⟩)
    rw [parseEntry_refDelta hheader, if_neg (not_lt.mpr hge), List.drop_left' hsha, he]
    rfl

theorem entrySettles_ofsDelta (pos : Nat) {size : Nat} {header : Bytes}
    (hheader : IsEntryHeader 6 size header) (rest : Bytes) :
    EntrySettles W C pos (header ++ rest) := by
  rcases isReadOffset_or rest with ⟨offset, ofs, rest, rfl, hofs⟩ | hhostile
  · have hrun : parseEntry W C pos (header ++ (ofs ++ rest)) = _ := parseEntry_ofsDelta hheader
    rw [readOfsOffset_read hofs, Outcome.ok_bind] at hrun
    simp only [List.drop_left] at hrun
    rcases lt_or_ge pos (W.cast offset) with hlt | hge
    · rw [if_pos hlt] at hrun
      exact .inr (.inr ⟨_, hrun⟩)
    · rw [if_neg (not_lt.mpr hge)] at hrun
      rcases readZlib_or (W := W) (C := C) (size % 2 ^ 64) " for ofs_delta" rest with
        ⟨hsize, data, used, hinflate⟩ | hsize | ⟨e, he⟩
      · exact .inl ⟨_, _, .ofsDelta hheader hofs hge hsize hinflate⟩
      · exact .inr (.inl (.capacity hheader (.ofsDelta hofs hge) hsize))
      · rw [he, Outcome.err_bind] at hrun
        exact .inr (.inr ⟨e, hrun⟩)
  · exact .inr (.inl (.offset hheader hhostile))

theorem entrySettles_object (pos : Nat) {typeBits size : Nat} {header : Bytes}
    (hheader : IsEntryHeader typeBits size header) (h7 : typeBits ≠ 7) (h6 : typeBits ≠ 6)
    (rest : Bytes) : EntrySettles W C pos (header ++ rest) := by
  rcases htype : typeFromBits typeBits with _ | objType
  · exact .inr (.inr ⟨_, parseEntry_unknown hheader h7 h6 htype⟩)
  rcases readZlib_or (W := W) (C := C) (size % 2 ^ 64) "" rest with
    ⟨hsize, data, used, hinflate⟩ | hsize | ⟨e, he⟩
  · exact .inl ⟨_, _, .object htype hheader hsize hinflate⟩
  · exact .inr (.inl (.capacity hheader (.object htype) hsize))
  · exact .inr (.inr ⟨e, by rw [parseEntry_object htype hheader, he, Outcome.err_bind]⟩)

theorem entrySettles (pos : Nat) {bs : Bytes} (hne : bs ≠ []) : EntrySettles W C pos bs := by
  rcases isEntryHeader_or hne with ⟨typeBits, size, header, rest, rfl, hheader⟩ | hlong | ⟨e, he⟩
  · by_cases h7 : typeBits = 7
    · subst h7
      exact entrySettles_refDelta pos hheader rest
    by_cases h6 : typeBits = 6
    · subst h6
      exact entrySettles_ofsDelta pos hheader rest
    exact entrySettles_object pos hheader h7 h6 rest
  · exact .inr (.inl (.header hlong))
  · exact .inr (.inr ⟨e, by rw [parseEntry, he, Outcome.err_bind]⟩)

/-! ## The loop -/

inductive ReadsEntries (W : Usize) (C : Crates) :
    (pos : Nat) → (bs : Bytes) → List (Nat × ParsedEntry) → (pos' : Nat) → (bs' : Bytes) → Prop
  | nil {pos : Nat} {bs : Bytes} : ReadsEntries W C pos bs [] pos bs
  | cons {pos used pos' : Nat} {bs bs' : Bytes} {e : ParsedEntry} {ps : List (Nat × ParsedEntry)} :
      ReadsEntry W C pos bs e used → ReadsEntries W C (pos + used) (bs.drop used) ps pos' bs' →
      ReadsEntries W C pos bs ((pos, e) :: ps) pos' bs'

def HostileEntries (W : Usize) (C : Crates) (n pos : Nat) (bs : Bytes) : Prop :=
  ∃ ps pos' bs', ReadsEntries W C pos bs ps pos' bs' ∧ ps.length < n ∧ HostileEntry W pos' bs'

theorem parseEntries_succ {n pos : Nat} {bs : Bytes} (hne : bs ≠ []) :
    parseEntries W C (n + 1) pos bs = (do
      let (entry, used) ← parseEntry W C pos bs
      let entries ← parseEntries W C n (pos + used) (bs.drop used)
      return (pos, entry) :: entries) := by
  rw [parseEntries, if_neg hne]

theorem ReadsEntries.parseEntries_eq {pos pos' : Nat} {bs bs' : Bytes}
    {ps : List (Nat × ParsedEntry)} (h : ReadsEntries W C pos bs ps pos' bs') (n : Nat) :
    parseEntries W C (ps.length + n) pos bs = (do
      let more ← parseEntries W C n pos' bs'
      return ps ++ more) := by
  induction h with
  | nil =>
    rw [List.length_nil, Nat.zero_add]
    exact (bind_pure _).symm
  | @cons pos used pos' bs bs' e ps he _ ih =>
    rw [List.length_cons, Nat.add_right_comm, parseEntries_succ he.ne_nil, he.parseEntry_eq,
      Outcome.ok_bind]
    simp only [ih, bind_assoc, pure_bind, List.cons_append]

theorem HostileEntries.parseEntries_eq {n pos : Nat} {bs : Bytes}
    (h : HostileEntries W C n pos bs) : ∃ why, parseEntries W C n pos bs = .panic why := by
  obtain ⟨ps, pos', bs', hreads, hlt, hhostile⟩ := h
  obtain ⟨why, hwhy⟩ := hhostile.parseEntry_eq (C := C)
  obtain ⟨m, rfl⟩ : ∃ m, n = ps.length + (m + 1) := ⟨n - ps.length - 1, by omega⟩
  refine ⟨why, ?_⟩
  rw [hreads.parseEntries_eq, parseEntries_succ hhostile.ne_nil, hwhy]
  rfl

theorem readsEntries_or (n pos : Nat) (bs : Bytes) :
    (∃ ps pos' bs', ReadsEntries W C pos bs ps pos' bs' ∧ ps.length = n) ∨
      HostileEntries W C n pos bs ∨ ∃ e, parseEntries W C n pos bs = .err e := by
  induction n generalizing pos bs with
  | zero => exact .inl ⟨[], pos, bs, .nil, rfl⟩
  | succ n ih =>
    rcases eq_or_ne bs [] with rfl | hne
    · exact .inr (.inr ⟨_, by rw [parseEntries, if_pos rfl]⟩)
    rcases entrySettles (W := W) (C := C) pos hne with ⟨e, used, he⟩ | hhostile | ⟨err, herr⟩
    · rcases ih (pos + used) (bs.drop used) with
        ⟨ps, pos', bs', hreads, hlen⟩ | ⟨ps, pos', bs', hreads, hlt, hhostile⟩ | ⟨err, herr⟩
      · exact .inl ⟨_, pos', bs', .cons he hreads, congrArg Nat.succ hlen⟩
      · exact .inr (.inl ⟨_, pos', bs', .cons he hreads, Nat.succ_lt_succ hlt, hhostile⟩)
      · refine .inr (.inr ⟨err, ?_⟩)
        rw [parseEntries_succ hne, he.parseEntry_eq, Outcome.ok_bind]
        simp only [herr, Outcome.err_bind]
    · exact .inr (.inl ⟨[], pos, bs, .nil, Nat.succ_pos n, hhostile⟩)
    · exact .inr (.inr ⟨err, by rw [parseEntries_succ hne, herr, Outcome.err_bind]⟩)

theorem parseEntries_eq_ok_iff {n pos : Nat} {bs : Bytes} {ps : List (Nat × ParsedEntry)} :
    parseEntries W C n pos bs = .ok ps ↔
      ps.length = n ∧ ∃ pos' bs', ReadsEntries W C pos bs ps pos' bs' := by
  have hrun {qs : List (Nat × ParsedEntry)} {pos' : Nat} {bs' : Bytes}
      (h : ReadsEntries W C pos bs qs pos' bs') : parseEntries W C qs.length pos bs = .ok qs := by
    have hread := h.parseEntries_eq 0
    simpa [parseEntries] using hread
  constructor
  · intro h
    rcases readsEntries_or (W := W) (C := C) n pos bs with
      ⟨qs, pos', bs', hreads, rfl⟩ | hhostile | ⟨e, he⟩
    · rw [hrun hreads, Outcome.ok.injEq] at h
      exact h ▸ ⟨rfl, pos', bs', hreads⟩
    · obtain ⟨why, hwhy⟩ := hhostile.parseEntries_eq
      exact absurd (hwhy.symm.trans h) (by simp)
    · exact absurd (he.symm.trans h) (by simp)
  · rintro ⟨rfl, pos', bs', hreads⟩
    exact hrun hreads

/-- The starts increase, and no base starts behind its delta. -/
structure EntryStarts (ps : List (Nat × ParsedEntry)) : Prop where
  increasing : (ps.map Prod.fst).Pairwise (· < ·)
  base_le : ∀ start basePos deltaData, (start, .ofsDelta basePos deltaData) ∈ ps → basePos ≤ start

theorem ReadsEntries.le_start {pos pos' : Nat} {bs bs' : Bytes} {ps : List (Nat × ParsedEntry)}
    (h : ReadsEntries W C pos bs ps pos' bs') : ∀ p ∈ ps, pos ≤ p.1 := by
  induction h with
  | nil => simp
  | cons _ _ ih =>
    exact List.forall_mem_cons.mpr ⟨le_rfl, fun p hp => (Nat.le_add_right ..).trans (ih p hp)⟩

theorem ReadsEntries.entryStarts {pos pos' : Nat} {bs bs' : Bytes} {ps : List (Nat × ParsedEntry)}
    (h : ReadsEntries W C pos bs ps pos' bs') : EntryStarts ps := by
  induction h with
  | nil => exact ⟨.nil, by simp⟩
  | @cons pos used pos' bs bs' e ps he hreads ih =>
    refine ⟨?_, ?_⟩
    · rw [List.map_cons, List.pairwise_cons]
      refine ⟨fun start hstart => ?_, ih.increasing⟩
      obtain ⟨p, hp, rfl⟩ := List.mem_map.mp hstart
      exact (Nat.lt_add_of_pos_right he.used_pos).trans_le (hreads.le_start p hp)
    · intro start basePos deltaData hmem
      rcases List.mem_cons.mp hmem with heq | hmem
      · obtain ⟨rfl, rfl⟩ := Prod.mk.inj heq
        cases he with
        | ofsDelta _ _ _ _ _ => exact Nat.sub_le ..
      · exact ih.base_le start basePos deltaData hmem

end NearGit.Packfile
