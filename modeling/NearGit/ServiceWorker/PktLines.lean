import NearGit.ServiceWorker.Request

/-! `readPktLines` of the service worker beside `read_until_flush` of git-core. -/

namespace NearGit.ServiceWorker
open Lib PktLine

def jsLength (data : Bytes) : Option ℤ := JsText.parseInt16 (JsText.textDecode (data.take 4))

/-- What both readers take for `n` whole lines and an end: too few bytes for a field, a field that
both read as zero, or a length of one to three. -/
inductive ReadAlike : ℕ → Bytes → Prop
  | short {data : Bytes} : data.length < 4 → ReadAlike 0 data
  | flush {data : Bytes} : 4 ≤ data.length → fieldLength data = 0 → jsLength data = some 0 →
      ReadAlike 0 data
  | small {data : Bytes} : 4 ≤ data.length → 0 < fieldLength data → fieldLength data < 4 →
      ReadAlike 0 data
  | line {n : ℕ} {data : Bytes} : 4 ≤ fieldLength data → fieldLength data ≤ data.length →
      ReadAlike n (data.drop (fieldLength data)) → ReadAlike (n + 1) data

theorem jsLength_of_fromStrRadix {data : Bytes} {s : String} {max n : ℕ}
    (hfield : data.take 4 = Utf8.encode s) (hradix : Hex.fromStrRadix max s.toList = some n) :
    jsLength data = some (n : ℤ) := by
  have hparse := JsText.parseInt16_of_fromStrRadix hradix
  rw [String.ofList_toList] at hparse
  rw [jsLength, hfield, JsText.textDecode_of_fromStrRadix hradix, hparse]

/-- Only where `read_until_flush` falls back to zero can `parseInt` read something else. -/
theorem jsLength_eq {data : Bytes} (h : fieldLength data ≠ 0) :
    jsLength data = some (fieldLength data : ℤ) := by
  unfold fieldLength at h ⊢
  rcases hdecode : Utf8.decode (data.take 4) with _ | s
  · rw [hdecode] at h
    exact absurd rfl h
  rw [hdecode] at h
  simp only [Option.getD_some] at h ⊢
  rcases hradix : Hex.fromStrRadix (2 ^ 64 - 1) s.toList with _ | n
  · rw [hradix] at h
    exact absurd rfl h
  exact jsLength_of_fromStrRadix (Utf8.encode_of_decode hdecode).symm hradix

theorem jsLength_flush (rest : Bytes) : jsLength (flush ++ rest) = some 0 := by
  have hzero : Hex.fromStrRadix 0 "0000".toList = some 0 := rfl
  exact jsLength_of_fromStrRadix (List.take_left' rfl) hzero

/-! ## The rounds of the loop -/

section Rounds
variable {data : Bytes} {pos : ℕ}

theorem field_slice (data : Bytes) (pos : ℕ) :
    JsText.slice data pos (pos + 4) = (data.drop pos).take 4 := by
  rw [JsText.slice, List.drop_take, Nat.add_sub_cancel_left]

theorem add_four_le (h : 4 ≤ (data.drop pos).length) : pos + 4 ≤ data.length := by
  rw [List.length_drop] at h
  omega

theorem readPktLinesFrom_short (h : (data.drop pos).length < 4) :
    readPktLinesFrom data pos = ([], data.drop pos) := by
  rw [List.length_drop] at h
  rw [readPktLinesFrom, if_neg (by omega)]

theorem readPktLinesFrom_nan (h : 4 ≤ (data.drop pos).length)
    (hnan : jsLength (data.drop pos) = none) : readPktLinesFrom data pos = ([[]], data) := by
  rw [jsLength, ← field_slice] at hnan
  rw [readPktLinesFrom, if_pos (add_four_le h)]
  simp only [hnan]

theorem readPktLinesFrom_zero (h : 4 ≤ (data.drop pos).length)
    (hzero : jsLength (data.drop pos) = some 0) :
    readPktLinesFrom data pos = ([], data.drop (pos + 4)) := by
  rw [jsLength, ← field_slice] at hzero
  rw [readPktLinesFrom, if_pos (add_four_le h)]
  simp only [hzero, if_true]

theorem readPktLinesFrom_small {len : ℤ} (h : 4 ≤ (data.drop pos).length)
    (hlen : jsLength (data.drop pos) = some len) (hne : len ≠ 0) (hlt : len < 4) :
    readPktLinesFrom data pos = ([], data.drop pos) := by
  rw [jsLength, ← field_slice] at hlen
  rw [readPktLinesFrom, if_pos (add_four_le h)]
  simp only [hlen, if_neg hne, dif_pos hlt]

theorem readPktLinesFrom_line {len : ℤ} (h : 4 ≤ (data.drop pos).length)
    (hlen : jsLength (data.drop pos) = some len) (hge : 4 ≤ len) :
    readPktLinesFrom data pos =
      (JsText.slice data (pos + 4) (pos + len.toNat) ::
        (readPktLinesFrom data (pos + len.toNat)).1,
          (readPktLinesFrom data (pos + len.toNat)).2) := by
  have hpos := add_four_le h
  rw [jsLength, ← field_slice] at hlen
  conv_lhs => rw [readPktLinesFrom]
  simp only [if_pos hpos, hlen, if_neg (show len ≠ 0 by omega), dif_neg (not_lt.mpr hge)]

theorem line_slice (data : Bytes) (pos len : ℕ) :
    JsText.slice data (pos + 4) (pos + len) = ((data.drop pos).take len).drop 4 := by
  rw [JsText.slice, List.take_drop, List.drop_drop]

end Rounds

/-! ## Both readers -/

theorem ReadAlike.readPktLinesFrom_eq {n pos : ℕ} {data s : Bytes} (h : ReadAlike n s)
    (hs : data.drop pos = s) :
    readPktLinesFrom data pos = readUntilFlush s ∧ (readUntilFlush s).1.length = n := by
  induction h generalizing pos with
  | short hlen =>
    subst hs
    rw [readPktLinesFrom_short hlen, readUntilFlush_short hlen]
    exact ⟨rfl, rfl⟩
  | flush hlen hzero hjs =>
    subst hs
    rw [readPktLinesFrom_zero hlen hjs, readUntilFlush_zero hlen hzero, List.drop_drop]
    exact ⟨rfl, rfl⟩
  | small hlen hpos hlt =>
    subst hs
    have hjs := jsLength_eq (Nat.pos_iff_ne_zero.mp hpos)
    rw [readPktLinesFrom_small hlen hjs (by omega) (by omega),
      readUntilFlush_break hlen (Nat.pos_iff_ne_zero.mp hpos) (.inl hlt)]
    exact ⟨rfl, rfl⟩
  | line hge hwhole _ ih =>
    subst hs
    obtain ⟨hnext, hcount⟩ := ih (List.drop_drop ..).symm
    have hne : fieldLength (data.drop pos) ≠ 0 := by omega
    rw [readPktLinesFrom_line (hge.trans hwhole) (jsLength_eq hne) (by omega), Int.toNat_natCast, hnext,
      readUntilFlush_line hge hwhole, line_slice]
    exact ⟨rfl, congrArg (· + 1) hcount⟩

theorem readAlike_encodes {payloads : List Bytes} (h : ∀ p ∈ payloads, p.length ≤ 65531)
    (rest : Bytes) : ReadAlike payloads.length (payloads.flatMap encode ++ (flush ++ rest)) := by
  induction payloads with
  | nil =>
    have hzero := fieldLength_flush rest
    exact .flush (by simp [length_flush]) hzero (jsLength_flush rest)
  | cons payload payloads ih =>
    have hshort := h payload (List.mem_cons_self ..)
    have hfield := fieldLength_encode hshort (payloads.flatMap encode ++ (flush ++ rest))
    have hlen := length_encode hshort
    rw [List.flatMap_cons, List.append_assoc, List.length_cons]
    refine .line (by omega) (by rw [hfield, List.length_append]; omega) ?_
    rw [hfield, List.drop_left' hlen]
    exact ih fun p hp => h p (List.mem_cons_of_mem _ hp)

theorem jsLength_of_taken {data : Bytes} {pos : ℕ} (hlen : 4 ≤ (data.drop pos).length)
    (h : readPktLinesFrom data pos = ([], (data.drop pos).drop 4)) :
    jsLength (data.drop pos) = some 0 := by
  rcases hjs : jsLength (data.drop pos) with _ | len
  · rw [readPktLinesFrom_nan hlen hjs] at h
    exact absurd (congrArg Prod.fst h) (List.cons_ne_nil _ _)
  by_contra hne
  have hlen0 : len ≠ 0 := fun hzero => hne (congrArg some hzero)
  rcases lt_or_ge len 4 with hlt | hge
  · -- it would stay where it is
    rw [readPktLinesFrom_small hlen hjs hlen0 hlt] at h
    have hlengths := congrArg List.length (congrArg Prod.snd h)
    simp only [List.length_drop] at hlengths hlen
    omega
  · rw [readPktLinesFrom_line hlen hjs hge] at h
    exact absurd (congrArg Prod.fst h) (List.cons_ne_nil _ _)

theorem exists_readAlike (data s : Bytes) (pos : ℕ) (hs : data.drop pos = s)
    (heq : readPktLinesFrom data pos = readUntilFlush s) : ∃ n, ReadAlike n s := by
  induction s using readUntilFlush.induct generalizing pos with
  | case1 s hlen hzero =>
    subst hs
    rw [readUntilFlush_zero hlen hzero] at heq
    exact ⟨0, .flush hlen hzero (jsLength_of_taken hlen heq)⟩
  | case2 s hlen hne hbad =>
    subst hs
    rcases lt_or_ge (fieldLength (data.drop pos)) 4 with hlt | hge
    · exact ⟨0, .small hlen (Nat.pos_of_ne_zero hne) hlt⟩
    · rw [readUntilFlush_break hlen hne hbad,
        readPktLinesFrom_line hlen (jsLength_eq hne) (by omega)] at heq
      exact absurd (congrArg Prod.fst heq) (List.cons_ne_nil _ _)
  | case3 s hlen hne hgood _ _ _ ih =>
    subst hs
    have hge : 4 ≤ fieldLength (data.drop pos) := by omega
    have hwhole : fieldLength (data.drop pos) ≤ (data.drop pos).length := by omega
    rw [readUntilFlush_line hge hwhole, readPktLinesFrom_line hlen (jsLength_eq hne) (by omega),
      Int.toNat_natCast, Prod.mk.injEq, List.cons.injEq] at heq
    obtain ⟨⟨-, hlines⟩, hrest⟩ := heq
    obtain ⟨n, hnext⟩ := ih (pos + fieldLength (data.drop pos)) (List.drop_drop ..).symm
      (Prod.ext hlines hrest)
    exact ⟨n + 1, .line hge hwhole hnext⟩
  | case4 s hshort => exact ⟨0, .short (not_le.mp hshort)⟩

theorem readers_agree_iff (data : Bytes) :
    readPktLines data = some (readUntilFlush data) ↔ ∃ n < 2 ^ 32, ReadAlike n data := by
  constructor
  · intro h
    rw [readPktLines] at h
    split_ifs at h with hcount
    have heq := Option.some.inj h
    obtain ⟨n, halike⟩ := exists_readAlike data data 0 List.drop_zero heq
    refine ⟨n, ?_, halike⟩
    rw [heq, (halike.readPktLinesFrom_eq List.drop_zero).2] at hcount
    exact hcount
  · rintro ⟨n, hn, halike⟩
    obtain ⟨heq, hcount⟩ := halike.readPktLinesFrom_eq (List.drop_zero (l := data))
    have hfew : (readPktLinesFrom data 0).1.length < 2 ^ 32 := by rwa [heq, hcount]
    rw [readPktLines, if_pos hfew, heq]

/-- One reader makes an empty line of it, the other none. -/
theorem readers_differ :
    readPktLines cutLine = some ([[]], []) ∧ readUntilFlush cutLine = ([], cutLine) := by
  have hne : fieldLength cutLine ≠ 0 := by rw [fieldLength_cutLine]; decide
  have hjs : jsLength (cutLine.drop 0) = some 5 := by
    rw [List.drop_zero, jsLength_eq hne, fieldLength_cutLine]
    rfl
  have hfrom : readPktLinesFrom cutLine 0 = ([[]], []) := by
    rw [readPktLinesFrom_line (by decide) hjs (by decide), readPktLinesFrom_short (by decide)]
    rfl
  refine ⟨?_, readUntilFlush_cutLine⟩
  rw [readPktLines, hfrom]
  rfl

end NearGit.ServiceWorker
