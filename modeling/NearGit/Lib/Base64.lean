import NearGit.Lib.Bytes
import Mathlib.Data.List.Basic

/-! Base64 as `btoa` writes it and `atob` reads it. -/

namespace Lib.Base64

def digit (n : Nat) : Char :=
  if n < 26 then Char.ofNat (n + 65)
  else if n < 52 then Char.ofNat (n + 71)
  else if n < 62 then Char.ofNat (n - 4)
  else if n = 62 then '+'
  else '/'

def value (c : Char) : Option Nat :=
  if 'A' ≤ c ∧ c ≤ 'Z' then some (c.toNat - 65)
  else if 'a' ≤ c ∧ c ≤ 'z' then some (c.toNat - 71)
  else if '0' ≤ c ∧ c ≤ '9' then some (c.toNat + 4)
  else if c = '+' then some 62
  else if c = '/' then some 63
  else none

/-- The groups of six bits, the last one filled up with zero bits. -/
def sextets : Bytes → List Nat
  | [] => []
  | [a] => [a.toNat / 4, a.toNat % 4 * 16]
  | [a, b] => [a.toNat / 4, a.toNat % 4 * 16 + b.toNat / 16, b.toNat % 16 * 4]
  | a :: b :: c :: rest =>
    a.toNat / 4 :: (a.toNat % 4 * 16 + b.toNat / 16) :: (b.toNat % 16 * 4 + c.toNat / 64) ::
      c.toNat % 64 :: sextets rest

def padding (length : Nat) : List Char := List.replicate ((3 - length % 3) % 3) '='

def encode (bs : Bytes) : String :=
  String.ofList ((sextets bs).map digit ++ padding bs.length)

/-- The bytes in groups of six bits; bits that are left over are dropped. -/
def ofSextets : List Nat → Bytes
  | a :: b :: c :: d :: rest =>
    UInt8.ofNat (a * 4 + b / 16) :: UInt8.ofNat (b % 16 * 16 + c / 4) ::
      UInt8.ofNat (c % 4 * 64 + d) :: ofSextets rest
  | [a, b, c] => [UInt8.ofNat (a * 4 + b / 16), UInt8.ofNat (b % 16 * 16 + c / 4)]
  | [a, b] => [UInt8.ofNat (a * 4 + b / 16)]
  | _ => []

def isWhitespace (c : Char) : Bool :=
  c = '\t' || c = '\n' || c = '\x0c' || c = '\r' || c = ' '

def stripPadding (chars : List Char) : List Char :=
  match chars.reverse with
  | '=' :: '=' :: rest => rest.reverse
  | '=' :: rest => rest.reverse
  | _ => chars

/-- The forgiving decoding of `atob`. -/
def decode (text : String) : Option Bytes :=
  let chars := text.toList.filter fun c => !isWhitespace c
  let chars := if chars.length % 4 = 0 then stripPadding chars else chars
  if chars.length % 4 = 1 then none else (chars.mapM value).map ofSextets

/-! ## The round trip -/

theorem sextets_lt (bs : Bytes) : ∀ n ∈ sextets bs, n < 64 := by
  induction bs using sextets.induct with
  | case1 => simp [sextets]
  | case2 a =>
    have ha := a.toNat_lt
    simp only [sextets, List.forall_mem_cons]
    exact ⟨by omega, by omega, by simp⟩
  | case3 a b =>
    have ha := a.toNat_lt
    have hb := b.toNat_lt
    simp only [sextets, List.forall_mem_cons]
    exact ⟨by omega, by omega, by omega, by simp⟩
  | case4 a b c rest ih =>
    have ha := a.toNat_lt
    have hb := b.toNat_lt
    have hc := c.toNat_lt
    simp only [sextets, List.forall_mem_cons]
    exact ⟨by omega, by omega, by omega, by omega, ih⟩

theorem ofSextets_sextets (bs : Bytes) : ofSextets (sextets bs) = bs := by
  induction bs using sextets.induct with
  | case1 => rfl
  | case2 a =>
    have ha := a.toNat_lt
    simp only [sextets, ofSextets, List.cons.injEq, and_true, ← UInt8.toNat_inj,
      UInt8.toNat_ofNat']
    omega
  | case3 a b =>
    have ha := a.toNat_lt
    have hb := b.toNat_lt
    simp only [sextets, ofSextets, List.cons.injEq, and_true, ← UInt8.toNat_inj,
      UInt8.toNat_ofNat']
    omega
  | case4 a b c rest ih =>
    have ha := a.toNat_lt
    have hb := b.toNat_lt
    have hc := c.toNat_lt
    simp only [sextets, ofSextets, List.cons.injEq, and_true, ← UInt8.toNat_inj,
      UInt8.toNat_ofNat', ih]
    omega

theorem length_sextets (bs : Bytes) :
    (sextets bs).length + (3 - bs.length % 3) % 3 = 4 * ((bs.length + 2) / 3) := by
  induction bs using sextets.induct with
  | case1 => rfl
  | case2 a => simp [sextets]
  | case3 a b => simp [sextets]
  | case4 a b c rest ih =>
    simp only [sextets, List.length_cons]
    omega

theorem value_digit {n : Nat} (h : n < 64) : value (digit n) = some n := by
  have hall : ∀ n < 64, value (digit n) = some n := by decide
  exact hall n h

theorem digit_plain {n : Nat} (h : n < 64) : isWhitespace (digit n) = false ∧ digit n ≠ '=' := by
  have hall : ∀ n < 64, isWhitespace (digit n) = false ∧ digit n ≠ '=' := by decide
  exact hall n h

theorem mapM_value {ns : List Nat} (h : ∀ n ∈ ns, n < 64) :
    (ns.map digit).mapM value = some ns := by
  induction ns with
  | nil => rfl
  | cons n ns ih =>
    obtain ⟨hn, hns⟩ := List.forall_mem_cons.mp h
    rw [List.map_cons, List.mapM_cons, value_digit hn, ih hns]
    rfl

theorem stripPadding_append {chars : List Char} (h : ∀ c ∈ chars, c ≠ '=') {k : Nat}
    (hk : k ≤ 2) : stripPadding (chars ++ List.replicate k '=') = chars := by
  have hback : ∀ c ∈ chars.reverse, c ≠ '=' := fun c hc => h c (List.mem_reverse.mp hc)
  have hself : chars = chars.reverse.reverse := (List.reverse_reverse chars).symm
  rw [hself]
  generalize chars.reverse = back at hback
  obtain rfl | rfl | rfl : k = 0 ∨ k = 1 ∨ k = 2 := by omega
  · rcases back with _ | ⟨c, back⟩
    · rfl
    · have hc : c ≠ '=' := hback c (List.mem_cons_self ..)
      simp [stripPadding, hc]
  · rcases back with _ | ⟨c, back⟩
    · rfl
    · have hc : c ≠ '=' := hback c (List.mem_cons_self ..)
      simp [stripPadding, hc]
  · simp [stripPadding]

theorem decode_encode (bs : Bytes) : decode (encode bs) = some bs := by
  have hlt := sextets_lt bs
  have hplain : ∀ c ∈ (sextets bs).map digit, isWhitespace c = false ∧ c ≠ '=' := by
    intro c hc
    obtain ⟨n, hn, rfl⟩ := List.mem_map.mp hc
    exact digit_plain (hlt n hn)
  have hfilter : ((sextets bs).map digit ++ padding bs.length).filter
      (fun c => !isWhitespace c) = (sextets bs).map digit ++ padding bs.length := by
    refine List.filter_eq_self.mpr fun c hc => ?_
    rcases List.mem_append.mp hc with hc | hc
    · simp [(hplain c hc).1]
    · rw [List.eq_of_mem_replicate hc]
      rfl
  have hlen := length_sextets bs
  have htotal : ((sextets bs).map digit ++ padding bs.length).length % 4 = 0 := by
    rw [List.length_append, List.length_map, padding, List.length_replicate]
    omega
  have hstrip : stripPadding ((sextets bs).map digit ++ padding bs.length) =
      (sextets bs).map digit :=
    stripPadding_append (fun c hc => (hplain c hc).2) (by omega)
  simp only [decode, encode, String.toList_ofList, hfilter]
  rw [if_pos htotal, hstrip, List.length_map, if_neg (by omega), mapM_value hlt, Option.map_some,
    ofSextets_sextets]

/-! ## Strict decoding -/

/-- The decoding that takes no white space, asks for the padding, and for zero bits where bits are
left over: nothing but what `encode` writes. -/
def decodeStandard (text : String) : Option Bytes := do
  let bs ← decode text
  if encode bs = text then some bs else none

theorem decodeStandard_eq_some {text : String} {bs : Bytes} :
    decodeStandard text = some bs ↔ encode bs = text := by
  unfold decodeStandard
  rw [Option.bind_eq_bind, Option.bind_eq_some_iff]
  constructor
  · rintro ⟨bs', -, h⟩
    split_ifs at h with hsame
    cases h
    exact hsame
  · rintro rfl
    exact ⟨bs, decode_encode bs, if_pos rfl⟩

@[simp] theorem decodeStandard_encode (bs : Bytes) : decodeStandard (encode bs) = some bs :=
  decodeStandard_eq_some.mpr rfl

theorem length_encode (bs : Bytes) : (encode bs).toList.length = 4 * ((bs.length + 2) / 3) := by
  have hlen := length_sextets bs
  rw [encode, String.toList_ofList, List.length_append, List.length_map, padding,
    List.length_replicate]
  exact hlen

theorem length_le_of_decodeStandard {text : String} {bs : Bytes}
    (h : decodeStandard text = some bs) : bs.length ≤ text.toList.length := by
  rw [← decodeStandard_eq_some.mp h, length_encode]
  omega

end Lib.Base64
