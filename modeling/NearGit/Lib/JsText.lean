import Mathlib.Algebra.Order.BigOperators.Group.List
import NearGit.Lib.Hex
import NearGit.Lib.Text
import NearGit.Lib.Utf8

/-! The string functions of JavaScript that the service worker uses, on characters. -/

namespace Lib.JsText

def isWhitespace (c : Char) : Bool :=
  let n := c.toNat
  (0x09 ≤ n && n ≤ 0x0D) || n == 0x20 || n == 0xA0 || n == 0x1680 ||
    (0x2000 ≤ n && n ≤ 0x200A) || n == 0x2028 || n == 0x2029 || n == 0x202F || n == 0x205F ||
    n == 0x3000 || n == 0xFEFF

def trim (s : String) : String :=
  String.ofList ((s.toList.dropWhile isWhitespace).rdropWhile isWhitespace)

def split (s : String) (c : Char) : List String := (s.toList.splitOn c).map String.ofList

def join (parts : List String) (c : Char) : String :=
  String.ofList ([c].intercalate (parts.map String.toList))

/-- `new TextDecoder().decode(bytes)`: a byte order mark in front is dropped. -/
def textDecode (bs : Bytes) : String :=
  Utf8.decodeLossy (if bs.take 3 = [0xEF, 0xBB, 0xBF] then bs.drop 3 else bs)

def isHexDigit (c : Char) : Bool := (Hex.toDigit c).isSome

def hexValue (digits : List Char) : ℕ :=
  digits.foldl (fun n c => n * 16 + (Hex.toDigit c).getD 0) 0

def takeSign : List Char → Bool × List Char
  | '-' :: s => (true, s)
  | '+' :: s => (false, s)
  | s => (false, s)

def dropHexPrefix : List Char → List Char
  | '0' :: 'x' :: s => s
  | '0' :: 'X' :: s => s
  | s => s

/-- `parseInt(s, 16)`: the digits in front, after white space, a sign and `0x`; none is `NaN`. -/
def parseInt16 (s : String) : Option ℤ :=
  let signed := takeSign (s.toList.dropWhile isWhitespace)
  let digits := (dropHexPrefix signed.2).takeWhile isHexDigit
  if digits = [] then none
  else some (if signed.1 then -(hexValue digits : ℤ) else hexValue digits)

/-- `bytes.slice(start, stop)`, from `0 ≤ start`. -/
def slice (bs : Bytes) (start stop : ℕ) : Bytes := (bs.take stop).drop start

theorem textDecode_encode {s : String} (h : (Utf8.encode s).take 3 ≠ [0xEF, 0xBB, 0xBF]) :
    textDecode (Utf8.encode s) = s := by
  rw [textDecode, if_neg h, Utf8.decodeLossy_encode]

theorem textDecode_of_head {c : Char} (hc : c.toNat < 128) (l : List Char) :
    textDecode (Utf8.encode (String.ofList (c :: l))) = String.ofList (c :: l) := by
  refine textDecode_encode fun hmark => ?_
  have hsmall : c.val.toNat ≤ 127 := Nat.le_of_lt_succ hc
  rw [Utf8.encode_ofList, List.flatMap_cons, String.utf8EncodeChar, if_pos hsmall] at hmark
  have hbyte : UInt8.ofNat c.toNat = 0xEF := (List.cons.inj hmark).1
  have hnat := congrArg UInt8.toNat hbyte
  rw [Utf8.toNat_ofNat_byte (by omega)] at hnat
  exact absurd (hnat ▸ hc) (by decide)

theorem trim_of_head {c : Char} (hc : isWhitespace c = false) (l : List Char) :
    trim (String.ofList (c :: l)) = String.ofList ((c :: l).rdropWhile isWhitespace) := by
  rw [trim, String.toList_ofList, List.dropWhile_cons_of_neg (by simp [hc])]

example : parseInt16 " 0x1g" = some 1 ∧ parseInt16 "-000" = some 0 ∧ parseInt16 "+g" = none := by
  decide +kernel

theorem split_append {c : Char} {l : List Char} (h : c ∉ l) (r : List Char) :
    split (String.ofList (l ++ c :: r)) c = String.ofList l :: split (String.ofList r) c := by
  rw [split, split, String.toList_ofList, String.toList_ofList,
    List.splitOn_append_cons_self_of_not_mem h, List.map_cons]

theorem split_of_notMem {c : Char} {l : List Char} (h : c ∉ l) :
    split (String.ofList l) c = [String.ofList l] := by
  rw [split, String.toList_ofList, List.splitOn_eq_singleton h, List.map_singleton]

theorem join_split (s : String) (c : Char) : join (split s c) c = s := by
  rw [join, split, List.map_map]
  simp [Function.comp_def, List.intercalate_splitOn]

theorem split_ne_nil (s : String) (c : Char) : split s c ≠ [] := by
  rw [split, ne_eq, List.map_eq_nil_iff]
  exact List.splitOn_ne_nil c _

theorem trim_append {l ws : List Char} (hhead : l.head?.any isWhitespace = false)
    (hlast : l.getLast?.any isWhitespace = false) (hne : l ≠ [])
    (hws : ws.all isWhitespace = true) :
    trim (String.ofList (l ++ ws)) = String.ofList l := by
  have hfront : (l ++ ws).dropWhile isWhitespace = l ++ ws := by
    obtain ⟨c, l, rfl⟩ := List.exists_cons_of_ne_nil hne
    have hc : isWhitespace c = false := hhead
    rw [List.cons_append, List.dropWhile_cons_of_neg (by simp [hc])]
  have hback : (l ++ ws).rdropWhile isWhitespace = l := by
    rw [List.rdropWhile, List.reverse_append, List.dropWhile_append_of_pos (by simpa using hws)]
    refine List.rdropWhile_eq_self_iff.mpr fun hl => ?_
    rw [List.getLast?_eq_some_getLast hl] at hlast
    simpa using hlast
  rw [trim, String.toList_ofList, hfront, hback]

theorem hexValue_concat (digits : List Char) (c : Char) :
    hexValue (digits ++ [c]) = hexValue digits * 16 + (Hex.toDigit c).getD 0 := by
  rw [hexValue, List.foldl_append]
  rfl

theorem hexValue_lt (digits : List Char) : hexValue digits < 16 ^ digits.length := by
  induction digits using List.reverseRecOn with
  | nil => decide
  | append_singleton digits c ih =>
    have hc : (Hex.toDigit c).getD 0 < 16 := by
      rcases hd : Hex.toDigit c with _ | d
      · decide
      · exact (Hex.digitChar_of_toDigit hd).1
    rw [hexValue_concat, List.length_append, List.length_singleton, pow_succ]
    omega

theorem length_takeSign (s : List Char) : (takeSign s).2.length ≤ s.length := by
  unfold takeSign
  split <;> simp

theorem length_dropHexPrefix (s : List Char) : (dropHexPrefix s).length ≤ s.length := by
  unfold dropHexPrefix
  split
  · simp only [List.length_cons]
    omega
  · simp only [List.length_cons]
    omega
  · exact le_rfl

theorem parseInt16_lt {s : String} {n : ℤ} {k : ℕ} (h : parseInt16 s = some n)
    (hk : s.toList.length ≤ k) : n < 16 ^ k := by
  set rest := (takeSign (s.toList.dropWhile isWhitespace)).2
  set digits := (dropHexPrefix rest).takeWhile isHexDigit with hdigits
  have hlength : digits.length ≤ k :=
    calc digits.length ≤ (dropHexPrefix rest).length := (List.takeWhile_prefix _).length_le
      _ ≤ rest.length := length_dropHexPrefix rest
      _ ≤ (s.toList.dropWhile isWhitespace).length := length_takeSign _
      _ ≤ s.toList.length := (List.dropWhile_suffix _).length_le
      _ ≤ k := hk
  have hvalue : hexValue digits < 16 ^ k :=
    (hexValue_lt digits).trans_le (Nat.pow_le_pow_right (by decide) hlength)
  have hcast : (hexValue digits : ℤ) < 16 ^ k := by exact_mod_cast hvalue
  simp only [parseInt16] at h
  split_ifs at h <;> cases h
  · omega
  · exact hcast

/-! ## The numbers that Rust reads -/

theorem toNat_of_isHexDigit {c : Char} (h : isHexDigit c = true) :
    0x30 ≤ c.toNat ∧ c.toNat ≤ 0x66 := by
  have hbound {a b : Char} (hab : a ≤ b) : a.toNat ≤ b.toNat := UInt32.le_iff_toNat_le.mp hab
  unfold isHexDigit Hex.toDigit at h
  split_ifs at h with hdec hlower hupper
  · exact ⟨hbound hdec.1, (hbound hdec.2).trans (by decide)⟩
  · exact ⟨le_trans (by decide) (hbound hlower.1), hbound hlower.2⟩
  · exact ⟨le_trans (by decide) (hbound hupper.1), (hbound hupper.2).trans (by decide)⟩
  · cases h

theorem isWhitespace_eq_false {c : Char} (hlower : 0x20 < c.toNat) (hupper : c.toNat < 0xA0) :
    isWhitespace c = false := by
  simp only [isWhitespace, Bool.or_eq_false_iff, Bool.and_eq_false_iff, decide_eq_false_iff_not,
    beq_eq_false_iff_ne]
  omega

theorem digits_eq_some {max n : ℕ} {src : List Char} (h : Hex.digits max src = some n) :
    src.all isHexDigit = true ∧ hexValue src = n := by
  induction src using List.reverseRecOn generalizing n with
  | nil =>
    cases h
    exact ⟨rfl, rfl⟩
  | append_singleton src c ih =>
    rw [Hex.digits, List.foldlM_append] at h
    obtain ⟨acc, hacc, hlast⟩ := Option.bind_eq_some_iff.mp h
    obtain ⟨hall, hvalue⟩ := ih hacc
    rw [List.foldlM_cons, Option.bind_eq_bind, Option.bind_eq_some_iff] at hlast
    obtain ⟨next, hnext, hdone⟩ := hlast
    obtain ⟨d, hd, hfits⟩ := Option.bind_eq_some_iff.mp hnext
    split_ifs at hfits
    cases hfits
    cases hdone
    refine ⟨?_, ?_⟩
    · simp [hall, isHexDigit, hd]
    · rw [hexValue_concat, hvalue, hd, Option.getD_some]

theorem dropHexPrefix_eq_self {l : List Char} (h : l.all isHexDigit = true) :
    dropHexPrefix l = l := by
  unfold dropHexPrefix
  split
  · simp [show isHexDigit 'x' = false from rfl] at h
  · simp [show isHexDigit 'X' = false from rfl] at h
  · rfl

theorem takeSign_eq_self {l : List Char} (h : l.all isHexDigit = true) :
    takeSign l = (false, l) := by
  unfold takeSign
  split
  · simp [show isHexDigit '-' = false from rfl] at h
  · simp [show isHexDigit '+' = false from rfl] at h
  · rfl

theorem parseInt16_of_signed {l digits : List Char} {n : ℕ}
    (hwhite : l.dropWhile isWhitespace = l) (hsign : takeSign l = (false, digits))
    (hne : digits ≠ []) (hall : digits.all isHexDigit = true) (hvalue : hexValue digits = n) :
    parseInt16 (String.ofList l) = some (n : ℤ) := by
  have htake : digits.takeWhile isHexDigit = digits :=
    List.takeWhile_eq_self_iff.mpr (List.all_eq_true.mp hall)
  simp only [parseInt16, String.toList_ofList, hwhite, hsign, dropHexPrefix_eq_self hall, htake,
    if_neg hne, Bool.false_eq_true, if_false, hvalue]

theorem parseInt16_of_fromStrRadix {max n : ℕ} {src : List Char}
    (h : Hex.fromStrRadix max src = some n) : parseInt16 (String.ofList src) = some (n : ℤ) := by
  unfold Hex.fromStrRadix at h
  split at h
  · cases h
  · cases h
  · rename_i rest hne
    obtain ⟨hall, hvalue⟩ := digits_eq_some h
    exact parseInt16_of_signed rfl rfl (fun hnil => hne (by rw [hnil])) hall hvalue
  · rename_i hnil _ _
    obtain ⟨hall, hvalue⟩ := digits_eq_some h
    obtain ⟨c, src, rfl⟩ := List.exists_cons_of_ne_nil hnil
    have hc : isWhitespace c = false := by
      have hbounds := toNat_of_isHexDigit (List.all_eq_true.mp hall c (List.mem_cons_self ..))
      exact isWhitespace_eq_false (by omega) (by omega)
    exact parseInt16_of_signed (List.dropWhile_cons_of_neg (by simp [hc])) (takeSign_eq_self hall)
      hnil hall hvalue

theorem ascii_of_fromStrRadix {max n : ℕ} {src : List Char}
    (h : Hex.fromStrRadix max src = some n) : ∀ c ∈ src, c.toNat < 128 := by
  have hdigits {src : List Char} (h : Hex.digits max src = some n) : ∀ c ∈ src, c.toNat < 128 := by
    intro c hc
    have hbounds := toNat_of_isHexDigit (List.all_eq_true.mp (digits_eq_some h).1 c hc)
    omega
  unfold Hex.fromStrRadix at h
  split at h
  · cases h
  · cases h
  · exact List.forall_mem_cons.mpr ⟨by decide, hdigits h⟩
  · exact hdigits h

theorem textDecode_of_fromStrRadix {max n : ℕ} {s : String}
    (h : Hex.fromStrRadix max s.toList = some n) : textDecode (Utf8.encode s) = s := by
  refine textDecode_encode fun hmark => ?_
  have hmem : 0xEF ∈ Utf8.encode s := List.mem_of_mem_take (hmark ▸ List.mem_cons_self ..)
  rw [← String.ofList_toList (s := s), Utf8.encode_ascii (ascii_of_fromStrRadix h)] at hmem
  obtain ⟨c, hc, heq⟩ := List.mem_map.mp hmem
  have hsmall := ascii_of_fromStrRadix h c hc
  have hnat := congrArg UInt8.toNat heq
  rw [Utf8.toNat_ofNat_byte (by omega)] at hnat
  exact absurd (hnat ▸ hsmall) (by decide)

/-! ## Lengths -/

def pieceLengths (parts : List String) : ℕ := (parts.map fun p => p.toList.length + 1).sum

theorem length_intercalate_singleton {α : Type*} (sep : α) {parts : List (List α)}
    (hne : parts ≠ []) :
    ([sep].intercalate parts).length + 1 = (parts.map fun p => p.length + 1).sum := by
  induction parts with
  | nil => exact absurd rfl hne
  | cons p parts ih =>
    cases parts with
    | nil => simp
    | cons q parts =>
      have hrest := ih (List.cons_ne_nil q parts)
      rw [List.intercalate_cons_cons, List.map_cons, List.sum_cons, ← hrest]
      simp only [List.length_append, List.length_singleton]
      omega

theorem length_join {parts : List String} (hne : parts ≠ []) (c : Char) :
    (join parts c).toList.length + 1 = pieceLengths parts := by
  have hmap : parts.map String.toList ≠ [] := by simpa using hne
  rw [join, String.toList_ofList, length_intercalate_singleton c hmap, List.map_map]
  rfl

theorem pieceLengths_split (s : String) (c : Char) :
    pieceLengths (split s c) = s.toList.length + 1 := by
  have hne : s.toList.splitOn c ≠ [] := List.splitOnP_ne_nil _ _
  have hlength := length_intercalate_singleton c hne
  rw [List.intercalate_splitOn] at hlength
  rw [hlength, pieceLengths, split, List.map_map]
  simp [Function.comp_def]

theorem length_le_of_mem_split {s p : String} {c : Char} (h : p ∈ split s c) :
    p.toList.length ≤ s.toList.length := by
  have hmem : p.toList.length + 1 ∈ (split s c).map fun p => p.toList.length + 1 :=
    List.mem_map_of_mem h
  have hle := List.le_sum_of_mem hmem
  have hsum := pieceLengths_split s c
  rw [pieceLengths] at hsum
  omega

theorem length_trim_le (s : String) : (trim s).toList.length ≤ s.toList.length := by
  rw [trim, String.toList_ofList]
  exact (List.rdropWhile_prefix _ _).length_le.trans (List.dropWhile_suffix _).length_le

theorem length_textDecode_le (bs : Bytes) : (textDecode bs).toList.length ≤ bs.length := by
  rw [textDecode]
  split_ifs
  · exact (Utf8.length_decodeLossy _).trans ((List.drop_suffix 3 bs).length_le)
  · exact Utf8.length_decodeLossy bs

end Lib.JsText
