import NearGit.Lib.Bytes

/-! A zlib codec that only uses stored blocks: a compressor at level 0, and a decompressor for
what it writes. -/

namespace Lib.StoredZlib

def adler32 (data : Bytes) : Nat :=
  let (a, b) := data.foldl (fun (a, b) x =>
    let a := (a + x.toNat) % 65521
    (a, (b + a) % 65521)) (1, 0)
  b * 2 ^ 16 + a

def blockHeader (final : Bool) (len : Nat) : Bytes :=
  [if final then 1 else 0, UInt8.ofNat len, UInt8.ofNat (len / 256), UInt8.ofNat (255 - len % 256),
    UInt8.ofNat (255 - len / 256)]

def blockMax : Nat := 65535

def blocks (data : Bytes) : Bytes :=
  if data.length ≤ blockMax then blockHeader true data.length ++ data
  else
    blockHeader false blockMax ++ (data.take blockMax ++ blocks (data.drop blockMax))
termination_by data.length
decreasing_by
  simp only [List.length_drop, blockMax] at *
  omega

def deflate (data : Bytes) : Bytes :=
  [0x78, 0x01] ++ (blocks data ++ be32 (adler32 data))

def readBlocks (input : Bytes) : Option (Bytes × Nat) :=
  match input with
  | kind :: lo :: hi :: nlo :: nhi :: rest =>
    let len := lo.toNat + hi.toNat * 256
    if kind.toNat ≤ 1 ∧ lo.toNat + nlo.toNat = 255 ∧ hi.toNat + nhi.toNat = 255 ∧
        len ≤ rest.length then
      if kind = 1 then some (rest.take len, 5 + len)
      else do
        let (data, used) ← readBlocks (rest.drop len)
        some (rest.take len ++ data, 5 + len + used)
    else none
  | _ => none
termination_by input.length

/-- The data of a stream and the count of bytes read; the checksum is checked. -/
def inflate (input : Bytes) : Except String (Bytes × Nat) :=
  match input with
  | 0x78 :: 0x01 :: rest =>
    match readBlocks rest with
    | some (data, used) =>
      if (rest.drop used).take 4 = be32 (adler32 data) then .ok (data, 2 + used + 4)
      else .error "corrupt deflate stream"
    | none => .error "corrupt deflate stream"
  | _ => .error "corrupt deflate stream"

theorem ofNat_toNat_of_lt {n : Nat} (h : n < 256) : (UInt8.ofNat n).toNat = n := by
  rw [UInt8.toNat_ofNat']
  omega

theorem readBlocks_block (final : Bool) {data : Bytes} (hlen : data.length ≤ blockMax)
    (rest : Bytes) :
    readBlocks (blockHeader final data.length ++ (data ++ rest)) =
      if final then some (data, 5 + data.length)
      else (readBlocks rest).map fun r => (data ++ r.1, 5 + data.length + r.2) := by
  have hmax : data.length < 65536 := Nat.lt_succ_of_le hlen
  have hlo : (UInt8.ofNat data.length).toNat = data.length % 256 := UInt8.toNat_ofNat'
  have hhi := ofNat_toNat_of_lt (show data.length / 256 < 256 by omega)
  have hnlo := ofNat_toNat_of_lt (show 255 - data.length % 256 < 256 by omega)
  have hnhi := ofNat_toNat_of_lt (show 255 - data.length / 256 < 256 by omega)
  have hsum : data.length % 256 + data.length / 256 * 256 = data.length := by omega
  simp only [blockHeader, List.cons_append, List.nil_append]
  rw [readBlocks]
  simp only [hlo, hhi, hnlo, hnhi, hsum, List.take_left, List.drop_left]
  rw [if_pos ⟨by cases final <;> decide, by omega, by omega, by simp⟩]
  cases final
  · rw [if_neg (by decide), if_neg (by decide)]
    cases readBlocks rest <;> rfl
  · rw [if_pos rfl]
    rfl

theorem readBlocks_blocks (data rest : Bytes) :
    readBlocks (blocks data ++ rest) = some (data, (blocks data).length) := by
  induction hn : data.length using Nat.strong_induction_on generalizing data with
  | _ n ih =>
    subst hn
    rw [blocks]
    split_ifs with h
    · rw [List.append_assoc, readBlocks_block true h, if_pos rfl]
      simp [blockHeader, Nat.add_comm]
      omega
    · have htake : (data.take blockMax).length = blockMax := by
        rw [List.length_take]
        omega
      have hdrop : (data.drop blockMax).length < data.length := by
        simp only [List.length_drop, blockMax] at *
        omega
      have hblock := readBlocks_block false htake.le
        (blocks (data.drop blockMax) ++ rest)
      rw [htake, ih _ hdrop _ rfl] at hblock
      rw [List.append_assoc, List.append_assoc, hblock]
      simp [blockHeader, List.take_append_drop, htake]
      omega

theorem inflate_deflate (data rest : Bytes) :
    inflate (deflate data ++ rest) = .ok (data, (deflate data).length) := by
  simp only [deflate, List.cons_append, List.nil_append, List.append_assoc, inflate,
    readBlocks_blocks, List.drop_left]
  rw [List.take_left' (be32_length _), if_pos rfl]
  simp [Nat.add_comm, Nat.add_left_comm]
  omega

theorem blocks_length_le (data : Bytes) : (blocks data).length ≤ 2 * data.length + 5 := by
  induction hn : data.length using Nat.strong_induction_on generalizing data with
  | _ n ih =>
    subst hn
    rw [blocks]
    split_ifs with h
    · simp [blockHeader]
      omega
    · have hlong : blockMax < data.length := not_le.mp h
      have hrest := ih (data.drop blockMax).length (by
        simp only [List.length_drop, blockMax] at *
        omega) _ rfl
      simp only [blockHeader, List.length_append, List.length_cons, List.length_nil,
        List.length_take, List.length_drop] at hrest ⊢
      simp only [blockMax] at *
      omega

theorem deflate_length_le (data : Bytes) : (deflate data).length ≤ 2 * data.length + 11 := by
  have := blocks_length_le data
  simp only [deflate, List.length_append, List.length_cons, List.length_nil, be32_length]
  omega

end Lib.StoredZlib
