import NearGit.Lib.Hex
import NearGit.Lib.Utf8

/-! The pkt-lines of `git-core`: four hexadecimal digits for the length, themselves included, and
then the payload. -/

namespace NearGit.PktLine
open Lib

/-- `{:04x}`. -/
def hexLength (len : ℕ) : Bytes :=
  let digits := Nat.toDigits 16 len
  Utf8.encode (String.ofList (List.replicate (4 - digits.length) '0' ++ digits))

def encode (data : Bytes) : Bytes :=
  let len := data.length + 4
  hexLength len ++ data

def flush : Bytes := Utf8.encode "0000"

/-- The length field in front of `data`; what is no number counts as zero. -/
def fieldLength (data : Bytes) : ℕ :=
  let lenStr := (Utf8.decode (data.take 4)).getD "0000"
  (Hex.fromStrRadix (2 ^ 64 - 1) lenStr.toList).getD 0

/-- The loop of `read_until_flush`, where `data` is what lies after `pos`. -/
def readUntilFlush (data : Bytes) : List Bytes × Bytes :=
  if 4 ≤ data.length then
    if fieldLength data = 0 then ([], data.drop 4)
    else if _hlen : fieldLength data < 4 ∨ data.length < fieldLength data then ([], data)
    else
      let payload := (data.take (fieldLength data)).drop 4
      let (lines, rest) := readUntilFlush (data.drop (fieldLength data))
      (payload :: lines, rest)
  else ([], data)
termination_by data.length
decreasing_by
  simp only [List.length_drop]
  omega

/-! ## The rounds of the loop -/

theorem readUntilFlush_short {data : Bytes} (h : data.length < 4) :
    readUntilFlush data = ([], data) := by
  rw [readUntilFlush, if_neg (not_le.mpr h)]

theorem readUntilFlush_zero {data : Bytes} (h : 4 ≤ data.length) (hzero : fieldLength data = 0) :
    readUntilFlush data = ([], data.drop 4) := by
  rw [readUntilFlush, if_pos h, if_pos hzero]

theorem readUntilFlush_break {data : Bytes} (h : 4 ≤ data.length) (hne : fieldLength data ≠ 0)
    (hbad : fieldLength data < 4 ∨ data.length < fieldLength data) :
    readUntilFlush data = ([], data) := by
  rw [readUntilFlush, if_pos h, if_neg hne, dif_pos hbad]

theorem readUntilFlush_line {data : Bytes} (h : 4 ≤ fieldLength data)
    (hwhole : fieldLength data ≤ data.length) :
    readUntilFlush data =
      ((data.take (fieldLength data)).drop 4 :: (readUntilFlush (data.drop (fieldLength data))).1,
        (readUntilFlush (data.drop (fieldLength data))).2) := by
  conv_lhs => rw [readUntilFlush]
  rw [if_pos (h.trans hwhole), if_neg (by omega), dif_neg (by omega)]

/-! ## The length field -/

theorem fieldLength_lt (data : Bytes) : fieldLength data < 2 ^ 16 := by
  unfold fieldLength
  dsimp only
  rcases hlen : Hex.fromStrRadix (2 ^ 64 - 1) ((Utf8.decode (data.take 4)).getD "0000").toList
    with _ | n
  · rw [Option.getD_none]
    exact Nat.two_pow_pos 16
  rw [Option.getD_some]
  have hshort : ((Utf8.decode (data.take 4)).getD "0000").toList.length ≤ 4 := by
    rcases htext : Utf8.decode (data.take 4) with _ | s
    · decide
    · have hle := Utf8.length_le_encode s.toList
      rw [String.ofList_toList, Utf8.encode_of_decode htext, List.length_take] at hle
      exact hle.trans (Nat.min_le_left ..)
  exact (Hex.fromStrRadix_lt hlen).trans_le (Nat.pow_le_pow_right (by decide) hshort)

theorem length_of_mem_readUntilFlush {data line : Bytes} (h : line ∈ (readUntilFlush data).1) :
    line.length < 2 ^ 16 := by
  induction data using readUntilFlush.induct with
  | case1 data hlen hzero =>
    rw [readUntilFlush_zero hlen hzero] at h
    cases h
  | case2 data hlen hne hbad =>
    rw [readUntilFlush_break hlen hne hbad] at h
    cases h
  | case3 data hlen hne hgood _ _ _ ih =>
    rw [readUntilFlush_line (by omega) (by omega)] at h
    rcases List.mem_cons.mp h with rfl | hmem
    · have hfield := fieldLength_lt data
      rw [List.length_drop, List.length_take]
      omega
    · exact ih hmem
  | case4 data hshort =>
    rw [readUntilFlush_short (not_le.mp hshort)] at h
    cases h

def lengthDigits (len : ℕ) : List Char :=
  List.replicate (4 - (Nat.toDigits 16 len).length) '0' ++ Nat.toDigits 16 len

theorem hexLength_eq (len : ℕ) : hexLength len = Utf8.encode (String.ofList (lengthDigits len)) :=
  rfl

theorem mem_lengthDigits {len : ℕ} {c : Char} (h : c ∈ lengthDigits len) :
    ∃ d < 16, c = Nat.digitChar d := by
  rcases List.mem_append.mp h with hzero | hdigit
  · exact ⟨0, by decide, List.eq_of_mem_replicate hzero⟩
  · exact Hex.mem_toDigits hdigit

theorem digitChar_ascii {d : ℕ} (hd : d < 16) :
    (Nat.digitChar d).toNat < 128 ∧ Nat.digitChar d ≠ '+' := by
  have h : ∀ d : Fin 16, (Nat.digitChar d.val).toNat < 128 ∧ Nat.digitChar d.val ≠ '+' := by decide
  exact h ⟨d, hd⟩

theorem length_hexLength {len : ℕ} (h : len < 2 ^ 16) : (hexLength len).length = 4 := by
  have hascii : ∀ c ∈ lengthDigits len, c.toNat < 128 := by
    intro c hc
    obtain ⟨d, hd, rfl⟩ := mem_lengthDigits hc
    exact (digitChar_ascii hd).1
  have hle : (Nat.toDigits 16 len).length ≤ 4 :=
    (Nat.length_toDigits_le_iff (by decide) (by decide)).mpr h
  rw [hexLength_eq, Utf8.length_encode_ascii hascii, lengthDigits, List.length_append,
    List.length_replicate]
  omega

theorem fieldLength_hexLength {len : ℕ} (h : len < 2 ^ 16) (rest : Bytes) :
    fieldLength (hexLength len ++ rest) = len := by
  have hplus : '+' ∉ lengthDigits len := by
    intro hmem
    obtain ⟨d, hd, hc⟩ := mem_lengthDigits hmem
    exact (digitChar_ascii hd).2 hc.symm
  have hne : lengthDigits len ≠ [] := by simp [lengthDigits]
  rw [fieldLength, List.take_left' (length_hexLength h), hexLength_eq, Utf8.decode_encode,
    Option.getD_some, String.toList_ofList, Hex.fromStrRadix_eq_digits hne hplus, lengthDigits,
    Hex.digits_zeros, Hex.digits_toDigits (by omega), Option.getD_some]

/-! ## Reading what was written -/

theorem length_flush : flush.length = 4 := rfl

theorem fieldLength_flush (rest : Bytes) : fieldLength (flush ++ rest) = 0 := by
  have hflush : flush = hexLength 0 := rfl
  rw [hflush, fieldLength_hexLength (by decide)]

theorem length_encode {payload : Bytes} (h : payload.length ≤ 65531) :
    (encode payload).length = payload.length + 4 := by
  rw [encode, List.length_append, length_hexLength (by omega), Nat.add_comm]

theorem fieldLength_encode {payload : Bytes} (h : payload.length ≤ 65531) (rest : Bytes) :
    fieldLength (encode payload ++ rest) = payload.length + 4 := by
  rw [encode, List.append_assoc, fieldLength_hexLength (by omega)]

theorem readUntilFlush_flush (rest : Bytes) : readUntilFlush (flush ++ rest) = ([], rest) := by
  rw [readUntilFlush_zero (by simp [length_flush]) (fieldLength_flush rest),
    List.drop_left' length_flush]

theorem readUntilFlush_encode {payload : Bytes} (h : payload.length ≤ 65531) (rest : Bytes) :
    readUntilFlush (encode payload ++ rest) =
      (payload :: (readUntilFlush rest).1, (readUntilFlush rest).2) := by
  have hlen := length_encode h
  have hfield := fieldLength_encode h rest
  have hread : ((encode payload ++ rest).take (payload.length + 4)).drop 4 = payload := by
    rw [List.take_left' hlen, encode, List.drop_left' (length_hexLength (by omega))]
  have hwhole : fieldLength (encode payload ++ rest) ≤ (encode payload ++ rest).length := by
    rw [hfield, List.length_append, hlen]
    exact Nat.le_add_right _ _
  rw [readUntilFlush_line (by omega) hwhole, hfield, List.drop_left' hlen, hread]

theorem readUntilFlush_encodes {payloads : List Bytes} (h : ∀ p ∈ payloads, p.length ≤ 65531)
    (rest : Bytes) :
    readUntilFlush (payloads.flatMap encode ++ (flush ++ rest)) = (payloads, rest) := by
  induction payloads with
  | nil => exact readUntilFlush_flush rest
  | cons payload payloads ih =>
    rw [List.flatMap_cons, List.append_assoc, readUntilFlush_encode (h _ (List.mem_cons_self ..)),
      ih fun p hp => h p (List.mem_cons_of_mem _ hp)]

theorem decode_undoes_encode {payloads : List Bytes} (h : ∀ p ∈ payloads, p.length ≤ 65531)
    (rest : Bytes) :
    readUntilFlush ((payloads.map encode).flatten ++ flush ++ rest) = (payloads, rest) := by
  rw [List.append_assoc, ← List.flatMap_def]
  exact readUntilFlush_encodes h rest

theorem decode_undoes_encode_flushLike :
    readUntilFlush (([[], flush].map encode).flatten ++ flush ++ [1, 2]) = ([[], flush], [1, 2]) :=
  decode_undoes_encode (by simp [show flush.length = 4 from rfl]) [1, 2]

/-! ## Lines that do not fit -/

def PlainHead (line : Bytes) : Prop :=
  ∃ b, line.head? = some b ∧ ∀ d < 16, b ≠ UInt8.ofNat (Nat.digitChar d).toNat

theorem head_of_readUntilFlush {data line : Bytes} {lines : List Bytes}
    (h : (readUntilFlush data).1 = line :: lines) : line = [] ∨ line.head? = data[4]? := by
  rw [readUntilFlush] at h
  split_ifs at h with hlen hzero hbad
  have hhead := (List.cons.inj h).1
  rw [← hhead, List.head?_drop, List.getElem?_take]
  split_ifs with hfour
  · exact .inr rfl
  · exact .inl (List.drop_eq_nil_of_le (by rw [List.length_take]; omega))

theorem getElem?_encode_of_lt {payload : Bytes} (h : 65531 < payload.length) (rest : Bytes) :
    ∃ d < 16, (encode payload ++ rest)[4]? = some (UInt8.ofNat (Nat.digitChar d).toNat) := by
  have hascii : ∀ c ∈ lengthDigits (payload.length + 4), c.toNat < 128 := by
    intro c hc
    obtain ⟨d, hd, rfl⟩ := mem_lengthDigits hc
    exact (digitChar_ascii hd).1
  have hlong : 4 < (lengthDigits (payload.length + 4)).length := by
    have hdigits : ¬ (Nat.toDigits 16 (payload.length + 4)).length ≤ 4 := by
      rw [Nat.length_toDigits_le_iff (by decide) (by decide)]
      omega
    rw [lengthDigits, List.length_append]
    omega
  obtain ⟨d, hd, hdigit⟩ := mem_lengthDigits (List.getElem_mem hlong)
  refine ⟨d, hd, ?_⟩
  rw [encode, List.append_assoc, hexLength_eq, Utf8.encode_ascii hascii,
    List.getElem?_append_left (by rwa [List.length_map]), List.getElem?_map,
    List.getElem?_eq_getElem hlong, hdigit]
  rfl

/-- Where lines with plain heads are read, as many lines as were written fitted. -/
theorem fits_of_readUntilFlush {payloads lines : List Bytes} {tail : Bytes}
    (hlines : ∀ l ∈ lines, PlainHead l) (hcount : payloads.length ≤ lines.length)
    (h : (readUntilFlush (payloads.flatMap encode ++ tail)).1 = lines) :
    ∀ p ∈ payloads, p.length ≤ 65531 := by
  induction payloads generalizing lines with
  | nil => exact fun p hp => absurd hp List.not_mem_nil
  | cons payload payloads ih =>
    obtain ⟨line, lines, rfl⟩ := List.exists_cons_of_length_pos
      (lt_of_lt_of_le (Nat.succ_pos payloads.length) hcount)
    obtain ⟨hline, hlines⟩ := List.forall_mem_cons.mp hlines
    rw [List.flatMap_cons, List.append_assoc] at h
    -- of a longer line the fifth digit of its length would be read first
    have hfits : payload.length ≤ 65531 := by
      by_contra hlong
      obtain ⟨b, hb, hplain⟩ := hline
      obtain ⟨d, hd, hfifth⟩ := getElem?_encode_of_lt (not_le.mp hlong)
        (payloads.flatMap encode ++ tail)
      rcases head_of_readUntilFlush h with rfl | hhead
      · cases hb
      · rw [hb, hfifth, Option.some.injEq] at hhead
        exact hplain d hd hhead
    rw [readUntilFlush_encode hfits, List.cons.injEq] at h
    exact List.forall_mem_cons.mpr ⟨hfits, ih hlines (Nat.le_of_succ_le_succ hcount) h.2⟩

/-- A line of one byte is announced, and the byte is not there. -/
def cutLine : Bytes := [0x30, 0x30, 0x30, 0x35]

theorem fieldLength_cutLine : fieldLength cutLine = 5 := by
  have hcut : cutLine = hexLength 5 := rfl
  rw [hcut, ← List.append_nil (hexLength 5), fieldLength_hexLength (by decide)]

theorem readUntilFlush_cutLine : readUntilFlush cutLine = ([], cutLine) := by
  refine readUntilFlush_break (by decide) ?_ (.inr ?_)
  · rw [fieldLength_cutLine]
    decide
  · rw [fieldLength_cutLine]
    decide

end NearGit.PktLine
