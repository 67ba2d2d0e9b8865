import NearGit.Lib.Base58
import NearGit.Lib.Base64
import NearGit.Lib.Borsh
import NearGit.Lib.Decimal
import NearGit.Lib.Outcome

/-! `create_signed_transaction`: a transaction written by hand, and the layout it is read with. -/

namespace NearGit.WasmLib
open Lib

/-- What is used of the crates `bs58`, `ed25519_dalek` and `sha2`. -/
structure SigningCrates where
  SigningKey : Type
  base58 : String → Except String Bytes
  fromKeypairBytes : Vector UInt8 64 → Except String SigningKey
  fromBytes : Vector UInt8 32 → SigningKey
  sha256 : Bytes → Vector UInt8 32
  sign : SigningKey → Bytes → Vector UInt8 64

structure TransactionArgs where
  signerId : String
  publicKeyB58 : String
  privateKeyB58 : String
  receiverId : String
  methodName : String
  args : Bytes
  nonce : UInt64
  blockHashB58 : String
  gas : UInt64
  deposit : String

def decodeB58 (C : SigningCrates) (what text : String) : Except String Bytes :=
  (C.base58 text).mapError fun e => s!"bad {what}: {e}"

/-- Secret and public key, or only the secret key. -/
def signingKey (C : SigningCrates) (privateKeyBytes : Bytes) : Except String C.SigningKey :=
  if h : privateKeyBytes.length = 64 then
    (C.fromKeypairBytes ⟨privateKeyBytes.toArray, by simpa using h⟩).mapError
      fun e => s!"bad keypair: {e}"
  else if h : privateKeyBytes.length = 32 then
    .ok (C.fromBytes ⟨privateKeyBytes.toArray, by simpa using h⟩)
  else .error s!"unexpected key length: {privateKeyBytes.length} (expected 32 or 64)"

def parseDeposit (deposit : String) : Except String Nat :=
  (Decimal.parse (2 ^ 128 - 1) deposit).mapError fun e => s!"bad deposit: {e.text}"

def borshString (s : String) : Bytes := Borsh.le32 (Utf8.encode s).length ++ Utf8.encode s

/-- `tx_bytes`. -/
def transactionBytes (a : TransactionArgs) (publicKeyBytes blockHashBytes : Bytes)
    (deposit : Nat) : Bytes :=
  borshString a.signerId ++
    -- ED25519
    ([0] ++ publicKeyBytes ++
    (Borsh.le 8 a.nonce.toNat ++
    (borshString a.receiverId ++
    (blockHashBytes ++
    -- one action, a function call
    (Borsh.le32 1 ++ ([2] ++
    (borshString a.methodName ++
    ((Borsh.le32 a.args.length ++ a.args) ++
    (Borsh.le 8 a.gas.toNat ++
    Borsh.le 16 deposit)))))))))

def createSignedTransaction (C : SigningCrates) (a : TransactionArgs) : Except String String := do
  let privateKeyBytes ← decodeB58 C "private key" a.privateKeyB58
  let signingKey ← signingKey C privateKeyBytes
  let publicKeyBytes ← decodeB58 C "public key" a.publicKeyB58
  let blockHashBytes ← decodeB58 C "block hash" a.blockHashB58
  if blockHashBytes.length ≠ 32 then
    .error s!"block hash must be 32 bytes, got {blockHashBytes.length}"
  else do
    let deposit ← parseDeposit a.deposit
    let txBytes := transactionBytes a publicKeyBytes blockHashBytes deposit
    let txHash := C.sha256 txBytes
    let signature := C.sign signingKey txHash.toList
    return Base64.encode (txBytes ++ ([0] ++ signature.toList))

/-! ## The layout -/

structure Transaction where
  signerId : String
  publicKey : Vector UInt8 32
  nonce : Nat
  receiverId : String
  blockHash : Vector UInt8 32
  methodName : String
  args : Bytes
  gas : Nat
  deposit : Nat

structure SignedTransaction where
  transaction : Transaction
  signature : Vector UInt8 64

section Layout
open Borsh

def transactionCodec : Codec Transaction :=
  (pair string
    (pair (pair (exactly [0]) (array 32))
    (pair (uint 8)
    (pair string
    (pair (array 32)
    (pair (exactly (le32 1)) (pair (exactly [2])
    (pair string
    (pair bytes
    (pair (uint 8)
    (uint 16))))))))))).map
    (fun (signerId, (_, publicKey), nonce, receiverId, blockHash, _, _, methodName, args, gas,
        deposit) =>
      some { signerId, publicKey, nonce, receiverId, blockHash, methodName, args, gas, deposit })
    (fun t => (t.signerId, ((), t.publicKey), t.nonce, t.receiverId, t.blockHash, (), (),
      t.methodName, t.args, t.gas, t.deposit))
    (fun _ => rfl)

def signedTransactionCodec : Codec SignedTransaction :=
  (pair transactionCodec (pair (exactly [0]) (array 64))).map
    (fun (transaction, _, signature) => some { transaction, signature })
    (fun t => (t.transaction, (), t.signature)) (fun _ => rfl)

end Layout

structure TransactionArgs.Asks (C : SigningCrates) (a : TransactionArgs) (t : Transaction) :
    Prop where
  signerId : t.signerId = a.signerId
  publicKey : C.base58 a.publicKeyB58 = .ok t.publicKey.toList
  nonce : t.nonce = a.nonce.toNat
  receiverId : t.receiverId = a.receiverId
  blockHash : C.base58 a.blockHashB58 = .ok t.blockHash.toList
  methodName : t.methodName = a.methodName
  args : t.args = a.args
  gas : t.gas = a.gas.toNat
  deposit : parseDeposit a.deposit = .ok t.deposit

/-- Where a text is returned it can be read to its last byte, and says what was asked; where the
arguments are no transaction, there is an error. -/
def SaysWhatWasAsked (C : SigningCrates) (a : TransactionArgs) : Prop :=
  (∀ text, createSignedTransaction C a = .ok text → ∃ bytes signed,
    Base64.decode text = some bytes ∧ signedTransactionCodec.tryFromSlice bytes = some signed ∧
      a.Asks C signed.transaction) ∧
  ((¬ ∃ t, a.Asks C t) → ∃ e, createSignedTransaction C a = .error e)

/-! ## What is signed -/

variable {C : SigningCrates} {a : TransactionArgs}

theorem decodeB58_eq_ok {what text : String} {bytes : Bytes} :
    decodeB58 C what text = .ok bytes ↔ C.base58 text = .ok bytes := except_mapError_eq_ok

theorem parseDeposit_lt {deposit : String} {n : Nat} (h : parseDeposit deposit = .ok n) :
    n < 256 ^ 16 := by
  have hle := Decimal.parse_le (except_mapError_eq_ok.mp h)
  omega

def Signs (C : SigningCrates) (privateKeyB58 : String) (key : C.SigningKey) : Prop :=
  ∃ bytes, C.base58 privateKeyB58 = .ok bytes ∧ signingKey C bytes = .ok key

structure Signed (C : SigningCrates) (a : TransactionArgs) (key : C.SigningKey)
    (publicKeyBytes blockHashBytes : Bytes) (deposit : Nat) : Prop where
  signs : Signs C a.privateKeyB58 key
  publicKey : C.base58 a.publicKeyB58 = .ok publicKeyBytes
  blockHash : C.base58 a.blockHashB58 = .ok blockHashBytes
  blockHashLength : blockHashBytes.length = 32
  deposit : parseDeposit a.deposit = .ok deposit

def signedBytes (C : SigningCrates) (a : TransactionArgs) (key : C.SigningKey)
    (publicKeyBytes blockHashBytes : Bytes) (deposit : Nat) : Bytes :=
  let txBytes := transactionBytes a publicKeyBytes blockHashBytes deposit
  txBytes ++ ([0] ++ (C.sign key (C.sha256 txBytes).toList).toList)

theorem createSignedTransaction_eq_ok {text : String} :
    createSignedTransaction C a = .ok text ↔ ∃ key publicKeyBytes blockHashBytes deposit,
      Signed C a key publicKeyBytes blockHashBytes deposit ∧
        text = Base64.encode (signedBytes C a key publicKeyBytes blockHashBytes deposit) := by
  constructor
  · intro h
    obtain ⟨privateKeyBytes, hprivate, h⟩ := except_bind_eq_ok.mp h
    obtain ⟨key, hkey, h⟩ := except_bind_eq_ok.mp h
    obtain ⟨publicKeyBytes, hpublic, h⟩ := except_bind_eq_ok.mp h
    obtain ⟨blockHashBytes, hhash, h⟩ := except_bind_eq_ok.mp h
    split_ifs at h with hlen
    obtain ⟨deposit, hdeposit, h⟩ := except_bind_eq_ok.mp h
    cases h
    exact ⟨key, publicKeyBytes, blockHashBytes, deposit,
      ⟨⟨privateKeyBytes, decodeB58_eq_ok.mp hprivate, hkey⟩, decodeB58_eq_ok.mp hpublic,
        decodeB58_eq_ok.mp hhash, not_not.mp hlen, hdeposit⟩, rfl⟩
  · rintro ⟨key, publicKeyBytes, blockHashBytes, deposit, h, rfl⟩
    obtain ⟨privateKeyBytes, hprivate, hkey⟩ := h.signs
    refine except_bind_eq_ok.mpr ⟨_, decodeB58_eq_ok.mpr hprivate, except_bind_eq_ok.mpr ⟨_, hkey,
      except_bind_eq_ok.mpr ⟨_, decodeB58_eq_ok.mpr h.publicKey,
        except_bind_eq_ok.mpr ⟨_, decodeB58_eq_ok.mpr h.blockHash, ?_⟩⟩⟩⟩
    rw [if_neg (not_not.mpr h.blockHashLength)]
    exact except_bind_eq_ok.mpr ⟨_, h.deposit, rfl⟩

/-! ## What is read -/

structure TransactionArgs.Fits (a : TransactionArgs) : Prop where
  signerId : (Utf8.encode a.signerId).length < 2 ^ 32
  receiverId : (Utf8.encode a.receiverId).length < 2 ^ 32
  methodName : (Utf8.encode a.methodName).length < 2 ^ 32
  args : a.args.length < 2 ^ 32

def TransactionArgs.transaction (a : TransactionArgs) (publicKey blockHash : Vector UInt8 32)
    (deposit : Nat) : Transaction where
  signerId := a.signerId
  publicKey := publicKey
  nonce := a.nonce.toNat
  receiverId := a.receiverId
  blockHash := blockHash
  methodName := a.methodName
  args := a.args
  gas := a.gas.toNat
  deposit := deposit

theorem uint64_lt (n : UInt64) : n.toNat < 256 ^ 8 := n.toNat_lt

theorem serialize_transaction (hfits : a.Fits) (publicKey blockHash : Vector UInt8 32)
    {deposit : Nat} (hdeposit : deposit < 256 ^ 16) :
    transactionCodec.serialize (a.transaction publicKey blockHash deposit) =
      some (transactionBytes a publicKey.toList blockHash.toList deposit) :=
  Borsh.serialize_pair (Borsh.serialize_string hfits.signerId)
    (Borsh.serialize_pair (Borsh.serialize_pair rfl rfl)
    (Borsh.serialize_pair (Borsh.serialize_uint (uint64_lt a.nonce))
    (Borsh.serialize_pair (Borsh.serialize_string hfits.receiverId)
    (Borsh.serialize_pair rfl
    (Borsh.serialize_pair rfl (Borsh.serialize_pair rfl
    (Borsh.serialize_pair (Borsh.serialize_string hfits.methodName)
    (Borsh.serialize_pair (Borsh.serialize_bytes hfits.args)
    (Borsh.serialize_pair (Borsh.serialize_uint (uint64_lt a.gas))
    (Borsh.serialize_uint hdeposit))))))))))

theorem Signed.reads {key : C.SigningKey} {publicKeyBytes blockHashBytes : Bytes} {deposit : Nat}
    (h : Signed C a key publicKeyBytes blockHashBytes deposit) (hfits : a.Fits)
    (hpublic : publicKeyBytes.length = 32) :
    ∃ signed, signedTransactionCodec.tryFromSlice
        (signedBytes C a key publicKeyBytes blockHashBytes deposit) = some signed ∧
      a.Asks C signed.transaction := by
  obtain ⟨publicKey, rfl⟩ : ∃ v : Vector UInt8 32, publicKeyBytes = v.toList :=
    ⟨⟨publicKeyBytes.toArray, by simpa using hpublic⟩, rfl⟩
  obtain ⟨blockHash, rfl⟩ : ∃ v : Vector UInt8 32, blockHashBytes = v.toList :=
    ⟨⟨blockHashBytes.toArray, by simpa using h.blockHashLength⟩, rfl⟩
  have htransaction := serialize_transaction hfits publicKey blockHash (parseDeposit_lt h.deposit)
  let signature := C.sign key
    (C.sha256 (transactionBytes a publicKey.toList blockHash.toList deposit)).toList
  have hsigned : signedTransactionCodec.serialize
      { transaction := a.transaction publicKey blockHash deposit, signature } =
        some (signedBytes C a key publicKey.toList blockHash.toList deposit) :=
    Borsh.serialize_pair htransaction (Borsh.serialize_pair rfl rfl)
  exact ⟨_, Borsh.Codec.tryFromSlice_eq _ hsigned,
    ⟨rfl, h.publicKey, rfl, rfl, h.blockHash, rfl, rfl, rfl, h.deposit⟩⟩

structure OthersFit (C : SigningCrates) (a : TransactionArgs) : Prop where
  signs : ∃ key, Signs C a.privateKeyB58 key
  blockHash : ∃ blockHashBytes, C.base58 a.blockHashB58 = .ok blockHashBytes ∧
    blockHashBytes.length = 32
  deposit : ∃ n, parseDeposit a.deposit = .ok n

/-- The transaction says what was asked for exactly if a public key that is decoded has 32 bytes,
unless something else is refused. -/
theorem signed_transaction_says_iff (C : SigningCrates) (a : TransactionArgs) (hfits : a.Fits) :
    SaysWhatWasAsked C a ↔ (OthersFit C a → ∀ publicKeyBytes,
      C.base58 a.publicKeyB58 = .ok publicKeyBytes → publicKeyBytes.length = 32) := by
  constructor
  · rintro ⟨hreads, -⟩ ⟨⟨key, hsigns⟩, ⟨blockHashBytes, hhash, hlen⟩, deposit, hdeposit⟩
    intro publicKeyBytes hpublic
    obtain ⟨bytes, signed, -, -, hasks⟩ := hreads _ (createSignedTransaction_eq_ok.mpr
      ⟨key, publicKeyBytes, blockHashBytes, deposit, ⟨hsigns, hpublic, hhash, hlen, hdeposit⟩, rfl⟩)
    rw [Except.ok.inj (hpublic.symm.trans hasks.publicKey)]
    simp
  · intro hpublic
    have hreads (text : String) (h : createSignedTransaction C a = .ok text) :
        ∃ bytes signed, Base64.decode text = some bytes ∧
          signedTransactionCodec.tryFromSlice bytes = some signed ∧
            a.Asks C signed.transaction := by
      obtain ⟨key, publicKeyBytes, blockHashBytes, deposit, hsigned, rfl⟩ :=
        createSignedTransaction_eq_ok.mp h
      have hothers : OthersFit C a :=
        ⟨⟨key, hsigned.signs⟩, ⟨_, hsigned.blockHash, hsigned.blockHashLength⟩,
          ⟨_, hsigned.deposit⟩⟩
      have hlen := hpublic hothers _ hsigned.publicKey
      obtain ⟨signed, hread, hasks⟩ := hsigned.reads hfits hlen
      exact ⟨_, signed, Base64.decode_encode _, hread, hasks⟩
    refine ⟨hreads, fun hnone => ?_⟩
    rcases hrun : createSignedTransaction C a with e | text
    · exact ⟨e, rfl⟩
    · obtain ⟨-, signed, -, -, hasks⟩ := hreads text hrun
      exact absurd ⟨_, hasks⟩ hnone

/-! ## With a key and without one -/

def sampleArgs (publicKeyB58 : String) : TransactionArgs where
  signerId := "alice.testnet"
  publicKeyB58 := publicKeyB58
  privateKeyB58 := "11111111111111111111111111111111"
  receiverId := "repo.gitfactory.testnet"
  methodName := "push"
  args := List.replicate 8 0
  nonce := 1
  blockHashB58 := "5wbD6GsVBReHetMUw17QcNne8BjB1xSKRoU4JYpafEx5"
  gas := 300000000000000
  deposit := "0"

/-- The crates, with the digest and the signature they give for one transaction. -/
def sampleCrates (digest : Vector UInt8 32) (signature : Vector UInt8 64) : SigningCrates where
  SigningKey := Vector UInt8 32
  base58 text :=
    (Base58.decode text).elim (.error "provided string contained invalid character") .ok
  fromKeypairBytes keypair := .ok ⟨(keypair.toList.take 32).toArray, by simp⟩
  fromBytes key := key
  sha256 _ := digest
  sign _ _ := signature

def withKey : SigningCrates :=
  sampleCrates
    ⟨#[0x6c, 0x05, 0x06, 0xe2, 0x90, 0xba, 0x77, 0x07, 0xab, 0x87, 0xf9, 0xd0, 0xbf, 0x47, 0x71,
      0x03, 0x4d, 0x6d, 0x98, 0xaa, 0x0a, 0x67, 0x8f, 0x0d, 0xe9, 0x3d, 0xff, 0x55, 0x10, 0x23,
      0xd3, 0xc1], rfl⟩
    ⟨#[0x0a, 0x21, 0xdb, 0x43, 0xf0, 0xa5, 0x85, 0x25, 0x3a, 0xae, 0xd6, 0xf8, 0x6a, 0x57, 0x2c,
      0x27, 0xd8, 0xff, 0x6f, 0xda, 0x3d, 0xd7, 0xaa, 0xa7, 0xa1, 0x33, 0x0f, 0xe7, 0x37, 0xf0,
      0x30, 0xf7, 0xb1, 0x50, 0x17, 0xf8, 0xd7, 0x53, 0x4d, 0xef, 0x2a, 0x26, 0xc5, 0xbd, 0x55,
      0x86, 0x82, 0x7c, 0xc2, 0x6d, 0x09, 0xf1, 0x46, 0x8d, 0x63, 0xad, 0x97, 0x6d, 0xe5, 0xbe,
      0x54, 0x42, 0x8d, 0x0f], rfl⟩

def withoutKey : SigningCrates :=
  sampleCrates
    ⟨#[0x14, 0xa8, 0x30, 0xec, 0x12, 0x93, 0x4c, 0xb7, 0x68, 0xec, 0x9c, 0xef, 0xd9, 0xb5, 0x5d,
      0x25, 0x15, 0xa6, 0x34, 0x75, 0xcb, 0x57, 0xc5, 0xc0, 0xbf, 0xa2, 0xab, 0x29, 0xc0, 0xe6,
      0x27, 0xf3], rfl⟩
    ⟨#[0x05, 0x1a, 0xc3, 0x25, 0x42, 0x0b, 0xb6, 0x9d, 0x6b, 0xd1, 0xbd, 0xfa, 0xc5, 0x8b, 0x08,
      0x79, 0x5b, 0xb6, 0x72, 0x13, 0xe4, 0x6f, 0x3f, 0x76, 0xa6, 0x68, 0x53, 0x5f, 0xf3, 0x06,
      0xc3, 0x7f, 0x9a, 0x69, 0x26, 0x37, 0xe3, 0xc2, 0x0a, 0xf3, 0x5e, 0x43, 0xd2, 0x0c, 0x03,
      0x75, 0xcc, 0xbc, 0x1b, 0x00, 0x96, 0xdc, 0x28, 0xf3, 0xcf, 0x88, 0x41, 0x40, 0xc3, 0xfb,
      0x10, 0xab, 0xaf, 0x0b], rfl⟩

theorem exists_of_base58 (digest : Vector UInt8 32) (signature : Vector UInt8 64) {text : String}
    {n : Nat} (h : (Base58.decode text).map List.length = some n) :
    ∃ bytes, (sampleCrates digest signature).base58 text = .ok bytes ∧ bytes.length = n := by
  obtain ⟨bytes, hbytes, hlen⟩ := Option.map_eq_some_iff.mp h
  refine ⟨bytes, ?_, hlen⟩
  simp [sampleCrates, hbytes]

theorem sampleArgs_fits (publicKeyB58 : String) : (sampleArgs publicKeyB58).Fits := by
  have hshort {s : String} (h : 4 * s.toList.length < 2 ^ 32) : (Utf8.encode s).length < 2 ^ 32 :=
    (Utf8.length_encode_le s).trans_lt h
  have hsigner : 4 * "alice.testnet".toList.length < 2 ^ 32 := by decide
  have hreceiver : 4 * "repo.gitfactory.testnet".toList.length < 2 ^ 32 := by decide
  have hmethod : 4 * "push".toList.length < 2 ^ 32 := by decide
  have hargs : (List.replicate 8 0 : Bytes).length < 2 ^ 32 := by decide
  exact ⟨hshort hsigner, hshort hreceiver, hshort hmethod, hargs⟩

theorem sampleArgs_signed (digest : Vector UInt8 32) (signature : Vector UInt8 64)
    {publicKeyB58 : String} {n : Nat}
    (h : (Base58.decode publicKeyB58).map List.length = some n) :
    ∃ key publicKeyBytes blockHashBytes, publicKeyBytes.length = n ∧
      Signed (sampleCrates digest signature) (sampleArgs publicKeyB58) key publicKeyBytes
        blockHashBytes 0 := by
  have hprivateText : (Base58.decode "11111111111111111111111111111111").map List.length =
      some 32 := by
    decide
  have hhashText : (Base58.decode "5wbD6GsVBReHetMUw17QcNne8BjB1xSKRoU4JYpafEx5").map List.length =
      some 32 := by
    decide
  obtain ⟨privateKeyBytes, hprivate, hprivateLength⟩ :=
    exists_of_base58 digest signature hprivateText
  obtain ⟨publicKeyBytes, hpublic, hpublicLength⟩ := exists_of_base58 digest signature h
  obtain ⟨blockHashBytes, hhash, hhashLength⟩ := exists_of_base58 digest signature hhashText
  have hdeposit : parseDeposit "0" = .ok 0 := by
    rfl
  have hkey : signingKey (sampleCrates digest signature) privateKeyBytes =
      .ok ⟨privateKeyBytes.toArray, by simpa using hprivateLength⟩ := by
    rw [signingKey, dif_neg (by omega), dif_pos hprivateLength]
    rfl
  exact ⟨_, publicKeyBytes, blockHashBytes, hpublicLength,
    ⟨⟨privateKeyBytes, hprivate, hkey⟩, hpublic, hhash, hhashLength, hdeposit⟩⟩

theorem signed_transaction_says_iff_sample :
    (∃ text, createSignedTransaction withKey
      (sampleArgs "4zvwRjXUKGfvwnParsHAS3HuSVzV5cA4McphgmoCtajS") = .ok text) ∧
    SaysWhatWasAsked withKey (sampleArgs "4zvwRjXUKGfvwnParsHAS3HuSVzV5cA4McphgmoCtajS") := by
  have hlen : (Base58.decode "4zvwRjXUKGfvwnParsHAS3HuSVzV5cA4McphgmoCtajS").map List.length =
      some 32 := by
    decide
  obtain ⟨key, publicKeyBytes, blockHashBytes, hpublicLength, hsigned⟩ :=
    sampleArgs_signed _ _ hlen
  refine ⟨⟨_, createSignedTransaction_eq_ok.mpr ⟨_, _, _, _, hsigned, rfl⟩⟩, ?_⟩
  refine (signed_transaction_says_iff withKey _ (sampleArgs_fits _)).mpr fun _ other hother => ?_
  rw [← Except.ok.inj (hsigned.publicKey.symm.trans hother)]
  exact hpublicLength

/-- Without a public key the call succeeds: it is the one field whose width is not checked. -/
theorem key_left_out : ¬ ∀ (C : SigningCrates) (a : TransactionArgs), a.Fits →
    SaysWhatWasAsked C a := by
  intro hclaim
  have hlen : (Base58.decode "").map List.length = some 0 := by
    decide
  obtain ⟨key, publicKeyBytes, blockHashBytes, hpublicLength, hsigned⟩ :
      ∃ (key : withoutKey.SigningKey) (publicKeyBytes blockHashBytes : Bytes),
        publicKeyBytes.length = 0 ∧
          Signed withoutKey (sampleArgs "") key publicKeyBytes blockHashBytes 0 :=
    sampleArgs_signed _ _ hlen
  obtain ⟨bytes, signed, -, -, hasks⟩ := (hclaim withoutKey _ (sampleArgs_fits "")).1 _
    (createSignedTransaction_eq_ok.mpr ⟨_, _, _, _, hsigned, rfl⟩)
  rw [Except.ok.inj (hsigned.publicKey.symm.trans hasks.publicKey)] at hpublicLength
  simp at hpublicLength

end NearGit.WasmLib
