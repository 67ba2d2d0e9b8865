import NearGit.Factory.GitFactory

/-! Which texts the factory takes for the hash of the repository code, and how it gives the hash
back. -/

namespace NearGit.Factory
open Lib Lib.Near NearGit.Contract

/-! ## The loop of `decode_hex` -/

def asChars (bs : Bytes) : List Char := bs.map fun b => Char.ofNat b.toNat

theorem toNat_asChar (b : UInt8) : (Char.ofNat b.toNat).toNat = b.toNat := by
  have hvalid : b.toNat.isValidChar := .inl (b.toNat_lt.trans (by decide))
  rw [Char.ofNat, dif_pos hvalid]
  rfl

theorem isCharBoundary_of_ascii {bs : Bytes} {i : ℕ} (hi : i ≤ bs.length)
    (h : ∀ b ∈ bs.drop i, b.toNat < 128) : isCharBoundary bs i = true := by
  unfold isCharBoundary
  rcases hb : bs[i]? with _ | b
  · have hlen := List.getElem?_eq_none_iff.mp hb
    exact decide_eq_true (le_antisymm hi hlen)
  · have hfirst : (bs.drop i)[0]? = some b := by rw [List.getElem?_drop, ← hb, Nat.add_zero]
    have hmem : b ∈ bs.drop i := List.mem_of_getElem? hfirst
    have hlt : b < 0x80 := UInt8.lt_iff_toNat_lt.mpr (h b hmem)
    simp [hlt]

theorem sliceStr_eq_ok {bs slice : Bytes} {i j : ℕ} : sliceStr bs i j = .ok slice ↔
    (i ≤ j ∧ isCharBoundary bs i = true ∧ isCharBoundary bs j = true) ∧
      (bs.drop i).take (j - i) = slice := by
  rw [sliceStr]
  split_ifs with h
  · simp only [Bool.and_eq_true, decide_eq_true_eq] at h
    simp [h]
  · simp only [Bool.and_eq_true, decide_eq_true_eq, and_assoc] at h
    simp [h]

theorem le_of_isCharBoundary {bs : Bytes} {i : ℕ} (h : isCharBoundary bs i = true) :
    i ≤ bs.length := by
  unfold isCharBoundary at h
  rcases hb : bs[i]? with _ | b
  · rw [hb] at h
    exact (of_decide_eq_true h).le
  · exact (List.getElem?_eq_some_iff.mp hb).1.le

theorem hexPair_eq_ok {a b u : UInt8} :
    hexPair [a, b] = .ok u ↔ Hex.IsPair (asChars [a, b]) u.toNat := by
  have hpair : asChars [a, b] = [Char.ofNat a.toNat, Char.ofNat b.toNat] := rfl
  rw [hpair, ← Hex.fromStrRadix_pair, hexPair, ← asChars, hpair]
  rcases hradix : Hex.fromStrRadix 255 [Char.ofNat a.toNat, Char.ofNat b.toNat] with _ | n
  · simp
  · have hn : n < 256 := (Hex.fromStrRadix_pair.mp hradix).lt
    simp only [Except.ok.injEq, Option.some.injEq]
    constructor
    · rintro rfl
      rw [UInt8.toNat_ofNat']
      omega
    · rintro rfl
      exact UInt8.ofNat_toNat

def ReadInPairs (chars : List Char) (bytes : Bytes) : Prop :=
  ∃ pairs : List (List Char), chars = pairs.flatten ∧
    List.Forall₂ (fun p b => Hex.IsPair p b.toNat) pairs bytes

theorem ReadInPairs.ascii {chars : List Char} {bytes : Bytes} (h : ReadInPairs chars bytes) :
    ∀ c ∈ chars, c.toNat < 128 := by
  obtain ⟨pairs, rfl, hpairs⟩ := h
  induction hpairs with
  | nil => exact fun c hc => absurd hc List.not_mem_nil
  | cons hpair _ ih =>
    intro c hc
    rw [List.flatten_cons] at hc
    rcases List.mem_append.mp hc with hc | hc
    · exact hpair.ascii c hc
    · exact ih c hc

theorem readInPairs_nil {bytes : Bytes} : ReadInPairs [] bytes ↔ bytes = [] := by
  constructor
  · rintro ⟨pairs, hflat, hpairs⟩
    cases hpairs with
    | nil => rfl
    | cons hpair _ =>
      have hlen := congrArg List.length hflat
      rw [List.flatten_cons, List.length_append, hpair.length_eq, List.length_nil] at hlen
      omega
  · rintro rfl
    exact ⟨[], rfl, .nil⟩

theorem not_readInPairs_singleton (c : Char) (bytes : Bytes) : ¬ ReadInPairs [c] bytes := by
  rintro ⟨pairs, hflat, hpairs⟩
  have hlen := congrArg List.length hflat
  cases hpairs with
  | nil => cases hlen
  | cons hpair _ =>
    rw [List.flatten_cons, List.length_append, hpair.length_eq, List.length_singleton] at hlen
    omega

theorem readInPairs_cons_cons {a b : Char} {chars : List Char} {bytes : Bytes} :
    ReadInPairs (a :: b :: chars) bytes ↔
      ∃ u rest, bytes = u :: rest ∧ Hex.IsPair [a, b] u.toNat ∧ ReadInPairs chars rest := by
  constructor
  · rintro ⟨pairs, hflat, hpairs⟩
    cases hpairs with
    | nil => cases hflat
    | @cons p u pairs rest hpair hpairs =>
      obtain ⟨c, d, rfl⟩ := List.length_eq_two.mp hpair.length_eq
      rw [List.flatten_cons, List.cons_append, List.cons_append, List.nil_append,
        List.cons.injEq, List.cons.injEq] at hflat
      obtain ⟨rfl, rfl, hflat⟩ := hflat
      exact ⟨u, rest, rfl, hpair, pairs, hflat, hpairs⟩
  · rintro ⟨u, rest, rfl, hpair, pairs, rfl, hpairs⟩
    exact ⟨[a, b] :: pairs, rfl, .cons hpair hpairs⟩

/-- One round of the loop. -/
def decodePair (bs : Bytes) (n : ℕ) : Except FactoryPanic UInt8 := do
  let pair ← sliceStr bs (2 * n) (2 * n + 2)
  hexPair pair

theorem decodePair_eq_ok {bs rest : Bytes} {n : ℕ} {a b u : UInt8}
    (hrest : bs.drop (2 * n) = a :: b :: rest) : decodePair bs n = .ok u ↔
      (isCharBoundary bs (2 * n) = true ∧ isCharBoundary bs (2 * n + 2) = true) ∧
        Hex.IsPair (asChars [a, b]) u.toNat := by
  have htake : (bs.drop (2 * n)).take (2 * n + 2 - 2 * n) = [a, b] := by
    rw [hrest, Nat.add_sub_cancel_left]
    rfl
  rw [decodePair, except_bind_eq_ok, ← hexPair_eq_ok]
  constructor
  · rintro ⟨pair, hpair, hu⟩
    obtain ⟨⟨-, hbounds⟩, rfl⟩ := sliceStr_eq_ok.mp hpair
    exact ⟨hbounds, htake ▸ hu⟩
  · rintro ⟨hbounds, hu⟩
    exact ⟨_, sliceStr_eq_ok.mpr ⟨⟨Nat.le_add_right _ _, hbounds⟩, htake⟩, hu⟩

theorem decodePair_ne_ok {bs : Bytes} {n : ℕ} {a : UInt8} (hrest : bs.drop (2 * n) = [a])
    (u : UInt8) : decodePair bs n ≠ .ok u := by
  intro hu
  obtain ⟨pair, hpair, -⟩ := except_bind_eq_ok.mp hu
  obtain ⟨⟨-, -, hbound⟩, -⟩ := sliceStr_eq_ok.mp hpair
  have hle := le_of_isCharBoundary hbound
  have hlen := congrArg List.length hrest
  rw [List.length_drop, List.length_singleton] at hlen
  omega

theorem isCharBoundary_pair {bs rest : Bytes} {k : ℕ} {a b : UInt8}
    (hrest : bs.drop (2 * k) = a :: b :: rest) (h : ∀ c ∈ a :: b :: rest, c.toNat < 128) :
    isCharBoundary bs (2 * k) = true ∧ isCharBoundary bs (2 * k + 2) = true := by
  have hlen := congrArg List.length hrest
  rw [List.length_drop, List.length_cons, List.length_cons] at hlen
  have hnext : bs.drop (2 * k + 2) = rest := by
    rw [← List.drop_drop, hrest]
    rfl
  constructor
  · exact isCharBoundary_of_ascii (by omega) (by rwa [hrest])
  · refine isCharBoundary_of_ascii (by omega) fun c hc => h c ?_
    rw [hnext] at hc
    exact List.mem_cons_of_mem _ (List.mem_cons_of_mem _ hc)

theorem decodePairs_eq_ok {bs rest : Bytes} {k : ℕ} {bytes : Bytes}
    (hrest : bs.drop (2 * k) = rest) :
    List.Forall₂ (fun n b => decodePair bs n = .ok b) (List.range' k ((rest.length + 1) / 2))
      bytes ↔ ReadInPairs (asChars rest) bytes := by
  induction rest using List.twoStepInduction generalizing k bytes with
  | nil =>
    rw [asChars, List.map_nil, readInPairs_nil]
    exact List.forall₂_nil_left_iff
  | singleton a =>
    refine iff_of_false ?_ (not_readInPairs_singleton _ bytes)
    have hone : ([a].length + 1) / 2 = 1 := by simp
    rw [hone, List.range'_one, List.forall₂_cons_left_iff]
    rintro ⟨u, us, hu, -, -⟩
    exact decodePair_ne_ok hrest u hu
  | cons_cons a b rest ih _ =>
    have hnext : bs.drop (2 * (k + 1)) = rest := by
      rw [Nat.mul_succ, ← List.drop_drop, hrest]
      rfl
    have hcount : ((a :: b :: rest).length + 1) / 2 = (rest.length + 1) / 2 + 1 := by
      rw [List.length_cons, List.length_cons]
      omega
    have hchars : asChars (a :: b :: rest) =
      Char.ofNat a.toNat :: Char.ofNat b.toNat :: asChars rest := rfl
    rw [hcount, List.range'_succ, List.forall₂_cons_left_iff, hchars, readInPairs_cons_cons]
    constructor
    · rintro ⟨u, us, hu, hus, rfl⟩
      exact ⟨u, us, rfl, ((decodePair_eq_ok hrest).mp hu).2, (ih hnext).mp hus⟩
    · -- the slices are only known to be taken once the whole rest is known to be ASCII
      rintro ⟨u, us, rfl, hpair, hus⟩
      have hab := hpair.ascii
      rw [List.forall_mem_cons, List.forall_mem_singleton, toNat_asChar, toNat_asChar] at hab
      have hascii : ∀ c ∈ rest, c.toNat < 128 := fun c hc =>
        toNat_asChar c ▸ hus.ascii _ (List.mem_map_of_mem hc)
      have hbounds := isCharBoundary_pair hrest
        (List.forall_mem_cons.mpr ⟨hab.1, List.forall_mem_cons.mpr ⟨hab.2, hascii⟩⟩)
      exact ⟨u, us, (decodePair_eq_ok hrest).mpr ⟨hbounds, hpair⟩, (ih hnext).mpr hus, rfl⟩

theorem asChars_encode {l : List Char} (h : ∀ c ∈ l, c.toNat < 128) :
    asChars (Utf8.encode (String.ofList l)) = l := by
  rw [Utf8.encode_ascii h, asChars, List.map_map]
  refine (List.map_congr_left fun c hc => ?_).trans (List.map_id l)
  rw [Function.comp_apply, Utf8.toNat_ofNat_byte ((h c hc).trans (by decide)), Char.ofNat_toNat,
    id_eq]

theorem encode_asChars {bs : Bytes} (h : ∀ c ∈ asChars bs, c.toNat < 128) :
    Utf8.encode (String.ofList (asChars bs)) = bs := by
  rw [Utf8.encode_ascii h, asChars, List.map_map]
  refine (List.map_congr_left fun b _ => ?_).trans (List.map_id _)
  rw [Function.comp_apply, toNat_asChar, UInt8.ofNat_toNat, id_eq]

theorem decodeHex_eq_ok {hex : String} {bytes : Bytes} :
    GitFactory.decodeHex hex = .ok bytes ↔ ReadInPairs hex.toList bytes := by
  have hloop : GitFactory.decodeHex hex = .ok bytes ↔
      ReadInPairs (asChars (Utf8.encode hex)) bytes := by
    have hall : (Utf8.encode hex).drop (2 * 0) = Utf8.encode hex := List.drop_zero
    rw [← decodePairs_eq_ok hall, ← except_mapM_eq_ok, ← List.range_eq_range']
    rfl
  rw [hloop]
  constructor
  · intro h
    have hhex : String.ofList (asChars (Utf8.encode hex)) = hex :=
      Utf8.encode_injective (encode_asChars h.ascii)
    rw [← hhex, String.toList_ofList]
    exact h
  · intro h
    have hchars := asChars_encode h.ascii
    rw [String.ofList_toList] at hchars
    rw [hchars]
    exact h

/-! ## What is accepted -/

def IsHexHash (hash : String) : Prop :=
  hash.toList.length = 64 ∧ ∀ c ∈ hash.toList, (Hex.toDigit c).isSome = true

def IsDigitPair (p : List Char) : Prop :=
  ∃ a b, p = [a, b] ∧ (Hex.toDigit a).isSome = true ∧ (Hex.toDigit b).isSome = true

def IsSignedPair (p : List Char) : Prop := ∃ b, p = ['+', b] ∧ (Hex.toDigit b).isSome = true

/-- 32 pairs of characters, each of which is two digits or a plus sign and a digit; at least one
has the sign. -/
def HasSigns (hash : String) : Prop :=
  ∃ pairs : List (List Char), hash.toList = pairs.flatten ∧ pairs.length = 32 ∧
    (∀ p ∈ pairs, IsDigitPair p ∨ IsSignedPair p) ∧ ∃ p ∈ pairs, IsSignedPair p

theorem isPair_cases {p : List Char} {n : ℕ} (h : Hex.IsPair p n) :
    IsDigitPair p ∨ IsSignedPair p := by
  cases h with
  | digits ha hb =>
    exact .inl ⟨_, _, rfl, Option.isSome_of_eq_some ha, Option.isSome_of_eq_some hb⟩
  | signed hb => exact .inr ⟨_, rfl, Option.isSome_of_eq_some hb⟩

theorem exists_isPair {p : List Char} (h : IsDigitPair p ∨ IsSignedPair p) :
    ∃ u : UInt8, Hex.IsPair p u.toNat := by
  have hbyte {n : ℕ} (hpair : Hex.IsPair p n) : ∃ u : UInt8, Hex.IsPair p u.toNat :=
    ⟨UInt8.ofNat n, by rwa [Utf8.toNat_ofNat_byte hpair.lt]⟩
  rcases h with ⟨a, b, rfl, ha, hb⟩ | ⟨b, rfl, hb⟩
  · obtain ⟨m, hm⟩ := Option.isSome_iff_exists.mp ha
    obtain ⟨n, hn⟩ := Option.isSome_iff_exists.mp hb
    exact hbyte (.digits hm hn)
  · obtain ⟨n, hn⟩ := Option.isSome_iff_exists.mp hb
    exact hbyte (.signed hn)

theorem readInPairs_of_digits {chars : List Char}
    (h : ∀ c ∈ chars, (Hex.toDigit c).isSome = true) {n : ℕ} (hlen : chars.length = 2 * n) :
    ∃ bytes, ReadInPairs chars bytes ∧ bytes.length = n ∧
      bytes.flatMap Hex.ofByte = chars.map Char.toLower := by
  induction chars using List.twoStepInduction generalizing n with
  | nil =>
    rw [List.length_nil] at hlen
    exact ⟨[], readInPairs_nil.mpr rfl, by rw [List.length_nil]; omega, rfl⟩
  | singleton c =>
    rw [List.length_singleton] at hlen
    omega
  | cons_cons a b chars ih _ =>
    obtain ⟨ha, hrest⟩ := List.forall_mem_cons.mp h
    obtain ⟨hb, hchars⟩ := List.forall_mem_cons.mp hrest
    rw [List.length_cons, List.length_cons] at hlen
    obtain ⟨bytes, hbytes, hcount, hlower⟩ := ih hchars (n := n - 1) (by omega)
    obtain ⟨d, hd⟩ := Option.isSome_iff_exists.mp ha
    obtain ⟨e, he⟩ := Option.isSome_iff_exists.mp hb
    obtain ⟨hdlt, hdchar⟩ := Hex.digitChar_of_toDigit hd
    obtain ⟨helt, hechar⟩ := Hex.digitChar_of_toDigit he
    have hpair : Hex.IsPair [a, b] (d * 16 + e) := .digits hd he
    have hbyte : (UInt8.ofNat (d * 16 + e)).toNat = d * 16 + e :=
      Utf8.toNat_ofNat_byte hpair.lt
    refine ⟨UInt8.ofNat (d * 16 + e) :: bytes, ?_, ?_, ?_⟩
    · exact readInPairs_cons_cons.mpr ⟨_, bytes, rfl, by rwa [hbyte], hbytes⟩
    · rw [List.length_cons]
      omega
    · have hhigh : (d * 16 + e) / 16 = d := by omega
      have hlow : (d * 16 + e) % 16 = e := by omega
      rw [List.flatMap_cons, hlower, Hex.ofByte, hbyte, hhigh, hlow, hdchar, hechar]
      rfl

theorem digits_of_pairs {pairs : List (List Char)} (h : ∀ p ∈ pairs, IsDigitPair p) :
    pairs.flatten.length = 2 * pairs.length ∧
      ∀ c ∈ pairs.flatten, (Hex.toDigit c).isSome = true := by
  induction pairs with
  | nil => exact ⟨rfl, fun c hc => absurd hc List.not_mem_nil⟩
  | cons p pairs ih =>
    obtain ⟨⟨a, b, rfl, ha, hb⟩, hpairs⟩ := List.forall_mem_cons.mp h
    obtain ⟨hlen, hdigits⟩ := ih hpairs
    rw [List.flatten_cons]
    refine ⟨?_, ?_⟩
    · rw [List.length_append, hlen, List.length_cons, List.length_cons, List.length_cons,
        List.length_nil]
      omega
    · exact List.forall_mem_cons.mpr ⟨ha, List.forall_mem_cons.mpr ⟨hb, hdigits⟩⟩

theorem decodes_iff (hash : String) :
    (∃ bytes, GitFactory.decodeHex hash = .ok bytes ∧ bytes.length = 32) ↔
      IsHexHash hash ∨ HasSigns hash := by
  simp only [decodeHex_eq_ok]
  constructor
  · rintro ⟨bytes, ⟨pairs, hflat, hpairs⟩, hlen⟩
    have hcount : pairs.length = 32 := hpairs.length_eq.trans hlen
    have hkinds : ∀ p ∈ pairs, IsDigitPair p ∨ IsSignedPair p := by
      intro p hp
      obtain ⟨i, hi, rfl⟩ := List.getElem_of_mem hp
      exact isPair_cases (hpairs.get hi (hpairs.length_eq ▸ hi))
    by_cases hsigned : ∃ p ∈ pairs, IsSignedPair p
    · exact .inr ⟨pairs, hflat, hcount, hkinds, hsigned⟩
    · have hall : ∀ p ∈ pairs, IsDigitPair p := fun p hp =>
        (hkinds p hp).resolve_right fun hplus => hsigned ⟨p, hp, hplus⟩
      obtain ⟨hsize, hdigits⟩ := digits_of_pairs hall
      rw [← hflat] at hsize hdigits
      exact .inl ⟨by rw [hsize, hcount], hdigits⟩
  · rintro (⟨hsize, hdigits⟩ | ⟨pairs, hflat, hcount, hkinds, -⟩)
    · obtain ⟨bytes, hbytes, hlen, -⟩ := readInPairs_of_digits hdigits (n := 32) hsize
      exact ⟨bytes, hbytes, hlen⟩
    · choose! byte hbyte using fun p hp => exists_isPair (hkinds p hp)
      refine ⟨pairs.map byte, ⟨pairs, hflat, ?_⟩, by rw [List.length_map, hcount]⟩
      rw [List.forall₂_map_right_iff, List.forall₂_same]
      exact hbyte

theorem HasSigns.not_isHexHash {hash : String} (h : HasSigns hash) : ¬ IsHexHash hash := by
  obtain ⟨pairs, hflat, -, -, p, hp, b, rfl, -⟩ := h
  rintro ⟨-, hdigits⟩
  have hplus : '+' ∈ hash.toList :=
    hflat ▸ List.mem_flatten.mpr ⟨_, hp, List.mem_cons_self ..⟩
  exact absurd (hdigits _ hplus) (by decide)

/-! ## The calls that take a hash -/

theorem new_eq_ok {predecessor hash : String} {f : GitFactory} :
    GitFactory.new predecessor hash = .ok f ↔
      ∃ bytes, (GitFactory.decodeHex hash = .ok bytes ∧ bytes.length = 32) ∧
        f = { globalContractHash := bytes, owner := predecessor } := by
  rw [GitFactory.new, except_bind_eq_ok]
  refine exists_congr fun bytes => ?_
  split_ifs with hlen
  · rw [Except.ok.injEq, and_iff_left hlen, @eq_comm _ f]
  · simp [hlen]

theorem setGlobalContractHash_eq_ok {f f' : GitFactory} {hash : String} :
    f.setGlobalContractHash f.owner hash = .ok f' ↔
      ∃ bytes, (GitFactory.decodeHex hash = .ok bytes ∧ bytes.length = 32) ∧
        f' = { f with globalContractHash := bytes } := by
  rw [GitFactory.setGlobalContractHash, if_pos rfl, except_bind_eq_ok]
  refine exists_congr fun bytes => ?_
  split_ifs with hlen
  · rw [Except.ok.injEq, and_iff_left hlen, @eq_comm _ f']
  · simp [hlen]

theorem ofBytes_of_isHexHash {hash : String} {bytes : Bytes} (h : IsHexHash hash)
    (hdecode : GitFactory.decodeHex hash = .ok bytes) : Hex.ofBytes bytes = hash.toLower := by
  obtain ⟨hsize, hdigits⟩ := h
  obtain ⟨bytes', hbytes', -, hlower⟩ := readInPairs_of_digits hdigits (n := 32) hsize
  obtain rfl : bytes' = bytes := Except.ok.inj ((decodeHex_eq_ok.mpr hbytes').symm.trans hdecode)
  have hmap : hash.toLower = hash.map Char.toLower := rfl
  apply String.toList_inj.mp
  rw [Hex.ofBytes, String.toList_ofList, hlower, hmap, String.toList_map]

def factoryReceipt (signer predecessor factory : String) (call : FunctionCall) :
    Receipt FunctionCall Code where
  signer := signer
  predecessor := predecessor
  receiver := factory
  actions := [.functionCall call 0]

section Calls
variable {net : Network} {w w' : World FunctionCall Code Deployed}
  {signer predecessor factory hash : String} {state : Option GitFactory} {call : FunctionCall}

def HasState (w : World FunctionCall Code Deployed) (factory : String)
    (state : Option GitFactory) : Prop :=
  ∃ acc, w.accounts factory = some acc ∧ acc.contract = some (.gitFactory state)

def Settled (net : Network) (w : World FunctionCall Code Deployed)
    (rc : Receipt FunctionCall Code) (w' : World FunctionCall Code Deployed) : Prop :=
  Executes (runtime net) w rc w' ∨ Fails (runtime net) w rc w'

theorem HasState.of_settled (h : HasState w factory state)
    (hpanic : ∀ ctx, ctx.predecessor = predecessor → ∀ f promises,
      factoryCall net state ctx call ≠ .ok (f, promises))
    (hsettled : Settled net w (factoryReceipt signer predecessor factory call) w') :
    HasState w' factory state := by
  obtain ⟨acc, hacc, hcontract⟩ := h
  rcases hsettled with hexec | hfails
  · obtain ⟨-, hruns⟩ := hexec
    obtain _ | ⟨haction, -⟩ := hruns
    cases haction with
    | functionCall hacc' hk hruns _ =>
      obtain rfl : acc = _ := Option.some.inj (hacc.symm.trans hacc')
      obtain rfl := Option.some.inj (hcontract.symm.trans hk)
      cases hruns with
      | factory hruns => exact absurd hruns (hpanic _ rfl _ _)
  · obtain ⟨-, -⟩ := hfails
    exact ⟨acc, hacc, hcontract⟩

theorem factoryCall_new_eq_ok {ctx : Context} {f : GitFactory} {promises : List RepoPromise}
    (h : factoryCall net none ctx (.new (some hash)) = .ok (f, promises)) :
    GitFactory.new ctx.predecessor hash = .ok f := by
  obtain ⟨-, -, h⟩ := except_bind_eq_ok.mp h
  obtain ⟨f', hf', h⟩ := except_bind_eq_ok.mp h
  cases h
  exact except_mapError_eq_ok.mp hf'

theorem factoryCall_setGlobalContractHash_eq_ok {ctx : Context} {f f' : GitFactory}
    {promises : List RepoPromise}
    (h : factoryCall net (some f) ctx (.setGlobalContractHash hash) = .ok (f', promises)) :
    f.setGlobalContractHash ctx.predecessor hash = .ok f' := by
  obtain ⟨-, -, h⟩ := except_bind_eq_ok.mp h
  obtain ⟨f'', hf'', h⟩ := except_bind_eq_ok.mp h
  cases h
  exact except_mapError_eq_ok.mp hf''

end Calls

/-! ## Exactly hexadecimal -/

/-- `new`, and `set_global_contract_hash` called by the owner, take exactly hexadecimal text and
give it back in lower case; anything else leaves the account of the factory as it was. -/
structure TakesExactlyHex (f : GitFactory) (predecessor hash : String) : Prop where
  new : (∃ f', GitFactory.new predecessor hash = .ok f') ↔ IsHexHash hash
  set : (∃ f', f.setGlobalContractHash f.owner hash = .ok f') ↔ IsHexHash hash
  given_back : ∀ f', GitFactory.new predecessor hash = .ok f' ∨
    f.setGlobalContractHash f.owner hash = .ok f' → f'.getGlobalContractHash = hash.toLower
  unchanged : ¬ IsHexHash hash → ∀ net w w' signer factory,
    (HasState w factory none →
      Settled net w (factoryReceipt signer predecessor factory (.new (some hash))) w' →
        HasState w' factory none) ∧
    (HasState w factory (some f) →
      Settled net w (factoryReceipt signer f.owner factory (.setGlobalContractHash hash)) w' →
        HasState w' factory (some f))

theorem new_succeeds_iff (predecessor hash : String) :
    (∃ f', GitFactory.new predecessor hash = .ok f') ↔ IsHexHash hash ∨ HasSigns hash := by
  rw [← decodes_iff]
  constructor
  · rintro ⟨f', hnew⟩
    obtain ⟨bytes, hbytes, -⟩ := new_eq_ok.mp hnew
    exact ⟨bytes, hbytes⟩
  · rintro ⟨bytes, hbytes⟩
    exact ⟨_, new_eq_ok.mpr ⟨bytes, hbytes, rfl⟩⟩

theorem set_succeeds_iff (f : GitFactory) (hash : String) :
    (∃ f', f.setGlobalContractHash f.owner hash = .ok f') ↔ IsHexHash hash ∨ HasSigns hash := by
  rw [← decodes_iff]
  constructor
  · rintro ⟨f', hset⟩
    obtain ⟨bytes, hbytes, -⟩ := setGlobalContractHash_eq_ok.mp hset
    exact ⟨bytes, hbytes⟩
  · rintro ⟨bytes, hbytes⟩
    exact ⟨_, setGlobalContractHash_eq_ok.mpr ⟨bytes, hbytes, rfl⟩⟩

/-- Both calls take more than hexadecimal text only where a pair of characters is a sign and a
digit. -/
theorem takes_exactly_hex_iff (f : GitFactory) (predecessor hash : String) :
    TakesExactlyHex f predecessor hash ↔ ¬ HasSigns hash := by
  constructor
  · intro h hsigns
    exact hsigns.not_isHexHash (h.new.mp ((new_succeeds_iff predecessor hash).mpr (.inr hsigns)))
  · intro hplain
    have hnew : (∃ f', GitFactory.new predecessor hash = .ok f') ↔ IsHexHash hash :=
      (new_succeeds_iff predecessor hash).trans (or_iff_left hplain)
    have hset : (∃ f', f.setGlobalContractHash f.owner hash = .ok f') ↔ IsHexHash hash :=
      (set_succeeds_iff f hash).trans (or_iff_left hplain)
    refine ⟨hnew, hset, ?_, fun hother net w w' signer factory => ⟨?_, ?_⟩⟩
    · rintro f' (hf' | hf')
      · obtain ⟨bytes, ⟨hdecode, -⟩, rfl⟩ := new_eq_ok.mp hf'
        exact ofBytes_of_isHexHash (hnew.mp ⟨_, hf'⟩) hdecode
      · obtain ⟨bytes, ⟨hdecode, -⟩, rfl⟩ := setGlobalContractHash_eq_ok.mp hf'
        exact ofBytes_of_isHexHash (hset.mp ⟨_, hf'⟩) hdecode
    · intro hstate
      refine hstate.of_settled fun ctx hctx f' promises hok => ?_
      exact hother (hnew.mp ⟨f', hctx ▸ factoryCall_new_eq_ok hok⟩)
    · intro hstate
      refine hstate.of_settled fun ctx hctx f' promises hok => ?_
      exact hother (hset.mp ⟨f', hctx ▸ factoryCall_setGlobalContractHash_eq_ok hok⟩)

/-! ## A hash with signs -/

def signedHash : String := String.ofList (List.replicate 32 ['+', 'f']).flatten

theorem hasSigns_signedHash : HasSigns signedHash := by
  have hpair : IsSignedPair ['+', 'f'] := ⟨'f', rfl, rfl⟩
  refine ⟨List.replicate 32 ['+', 'f'], String.toList_ofList, List.length_replicate, ?_, ?_⟩
  · intro p hp
    exact .inr (List.eq_of_mem_replicate hp ▸ hpair)
  · exact ⟨_, List.mem_replicate.mpr ⟨by decide, rfl⟩, hpair⟩

/-- Half of the characters are plus signs, and the text is taken for 32 bytes. -/
theorem signedHash_taken : ¬ IsHexHash signedHash ∧
    (∃ f', GitFactory.new "alice.testnet" signedHash = .ok f') ∧
    ¬ ∀ f predecessor hash, TakesExactlyHex f predecessor hash := by
  refine ⟨hasSigns_signedHash.not_isHexHash, ?_, fun hall => ?_⟩
  · exact (new_succeeds_iff "alice.testnet" signedHash).mpr (.inr hasSigns_signedHash)
  · have hexact := hall ⟨[], "alice.testnet"⟩ "alice.testnet" signedHash
    have hnew := (new_succeeds_iff "alice.testnet" signedHash).mpr (.inr hasSigns_signedHash)
    exact hasSigns_signedHash.not_isHexHash (hexact.new.mp hnew)

end NearGit.Factory
