-- SUMMARY: The public keys of the node: the text that an address becomes, and how OpenSSL is asked about a signature.
import BuenzliCoin.Base.Env

/-!
# Key pairs

An address is the base64 text of a public key, with or without its padding. The node
puts the padding back and a header and a footer around it, and leaves the rest to
OpenSSL.
-/

namespace BuenzliCoin

namespace PublicKey

/-- The loop of `build_key`, on the bytes of the string. -/
def padKey (key : List UInt8) : List UInt8 :=
  if key.length % 4 ≠ 0 then padKey (key ++ [61]) else key
termination_by (4 - key.length % 4) % 4
decreasing_by
  rw [List.length_append, List.length_singleton]
  omega

/-- `detail::build_key` -/
def buildKey (key header footer : List UInt8) : List UInt8 :=
  header ++ [10] ++ padKey key ++ [10] ++ footer

def header : List UInt8 := "-----BEGIN PUBLIC KEY-----".toUTF8.data.toList

def footer : List UInt8 := "-----END PUBLIC KEY-----".toUTF8.data.toList

end PublicKey

/-- `PublicKey` with what `ECSecp256k1PublicKey` adds to it. -/
structure PublicKey where
  key : List UInt8
  deriving DecidableEq, Repr

/-- What `verify` calls in OpenSSL. Nothing runs out of memory there. -/
structure OpenSsl (K : Type) where
  /-- `PEM_read_bio_EC_PUBKEY` -/
  readKey : List UInt8 → Option K
  /-- `EVP_PKEY_assign_EC_KEY` -/
  assignKey : K → Int
  /-- `EVP_PKEY_verify_init` -/
  verifyInit : K → Int
  /-- `EVP_PKEY_verify`, with the signature before the hash. -/
  verify : K → List UInt8 → List UInt8 → Int
  /-- The text of the error that waits in the queue of OpenSSL. -/
  errorString : String

namespace PublicKey

def new (key : String) : PublicKey := ⟨buildKey key.toUTF8.data.toList header footer⟩

variable {K : Type}

def verify (openSsl : OpenSsl K) (publicKey : PublicKey) (hash sig : Digest) :
    Except String Bool :=
  match openSsl.readKey publicKey.key with
  | none => .error "failed to parse public key"
  | some key =>
    if openSsl.assignKey key ≠ 1 then .error openSsl.errorString
    else if openSsl.verifyInit key ≠ 1 then .error openSsl.errorString
    else
      match openSsl.verify key sig.vec hash.vec with
      | 0 => .ok false
      | 1 => .ok true
      | _ => .error openSsl.errorString

-- ---------------------------------------------------------------------------
-- Padding
-- ---------------------------------------------------------------------------

/-- The padding that is missing from a text of this length. -/
def missing (length : Nat) : Nat := (4 - length % 4) % 4

theorem padKey_eq (key : List UInt8) :
    padKey key = key ++ List.replicate (missing key.length) 61 := by
  fun_induction padKey key with
  | case1 key hpad ih =>
    have hmissing : missing key.length = missing (key ++ [61]).length + 1 := by
      rw [List.length_append, List.length_singleton, missing, missing]
      omega
    rw [ih, hmissing, List.replicate_succ, List.append_assoc]
    rfl
  | case2 key hpad =>
    have hmissing : missing key.length = 0 := by
      rw [missing]
      omega
    rw [hmissing, List.replicate_zero, List.append_nil]

/-- A key that OpenSSL reads and accepts verifies whatever OpenSSL verifies with it. -/
theorem verify_eq_true {openSsl : OpenSsl K} {publicKey : PublicKey} {key : K}
    {hash sig : Digest} (hread : openSsl.readKey publicKey.key = some key)
    (hassign : openSsl.assignKey key = 1) (hinit : openSsl.verifyInit key = 1)
    (hverify : openSsl.verify key sig.vec hash.vec = 1) :
    publicKey.verify openSsl hash sig = .ok true := by
  simp [verify, hread, hassign, hinit, hverify]

end PublicKey

/-- A program that verifies signatures with this OpenSSL. -/
abbrev Env.verifying {K : Type} (env : Env) (openSsl : OpenSsl K) : Env :=
  { env with verify := fun address hash sig => (PublicKey.new address).verify openSsl hash sig }

end BuenzliCoin
