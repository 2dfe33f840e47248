-- SUMMARY: Addresses between the wallet and the node: the key that the node reads, and that a wallet can sign for it.
import BuenzliCoin.Base.KeyPair
import BuenzliCoin.Wallet.Transfer

/-!
# Addresses

The wallet trims the padding off the base64 text of a public key, and the node puts it
back. So the address of a wallet is the key of the wallet to the node, and the wallet
can spend what is sent there.
-/

namespace BuenzliCoin

open GoString Runs

-- ---------------------------------------------------------------------------
-- Base64
-- ---------------------------------------------------------------------------

namespace Base64

theorem digit_ne_equalsSign (val : Nat) : digit val ≠ equalsSign := by
  intro heq
  exact equalsSign_not_mem (heq ▸ digit_mem val)

/-- The six bits that a character stands for. -/
def sextet (c : UInt8) : Nat := alphabet.idxOf c % 64

theorem sextet_digit (val : Nat) : sextet (digit val) = val % 64 := by
  have hnodup : alphabet.Nodup := by decide
  have hlength : val % 64 < alphabet.length := Nat.mod_lt val (show 0 < 64 by decide)
  rw [digit, List.getD_eq_getElem?_getD, List.getElem?_eq_getElem hlength, Option.getD_some, sextet,
    hnodup.idxOf_getElem, Nat.mod_mod]

/-- The bytes that a text in groups of four characters stands for. -/
def decodeString : GoString → List UInt8
  | c1 :: c2 :: c3 :: c4 :: rest =>
    let val := sextet c1 * 2 ^ 18 + sextet c2 * 2 ^ 12 + sextet c3 * 2 ^ 6 + sextet c4
    let byte1 := UInt8.ofNat (val / 2 ^ 16)
    let byte2 := UInt8.ofNat (val / 2 ^ 8)
    if c3 = equalsSign then [byte1]
    else if c4 = equalsSign then [byte1, byte2]
    else byte1 :: byte2 :: UInt8.ofNat val :: decodeString rest
  | _ => []

theorem ofNat_eq {n : Nat} (byte : UInt8) (h : n % 256 = byte.toNat) : UInt8.ofNat n = byte :=
  UInt8.toNat_inj.mp ((UInt8.toNat_ofNat).trans h)

theorem decodeString_encodeToString (bytes : List UInt8) :
    decodeString (encodeToString bytes) = bytes := by
  have hequals : sextet equalsSign = 0 := by decide
  fun_induction encodeToString bytes with
  | case1 a b c rest val ih =>
    have hval : val = a.toNat * 2 ^ 16 + b.toNat * 2 ^ 8 + c.toNat := rfl
    have ha := a.toNat_lt
    have hb := b.toNat_lt
    have hc := c.toNat_lt
    rw [decodeString, if_neg (digit_ne_equalsSign _), if_neg (digit_ne_equalsSign _), ih]
    simp only [sextet_digit]
    rw [ofNat_eq a (by omega), ofNat_eq b (by omega),
      ofNat_eq c (by omega)]
  | case2 a b val =>
    have hval : val = a.toNat * 2 ^ 16 + b.toNat * 2 ^ 8 := rfl
    have ha := a.toNat_lt
    have hb := b.toNat_lt
    rw [decodeString, if_neg (digit_ne_equalsSign _), if_pos rfl]
    simp only [sextet_digit, hequals]
    rw [ofNat_eq a (by omega), ofNat_eq b (by omega)]
  | case3 a val =>
    have hval : val = a.toNat * 2 ^ 16 := rfl
    have ha := a.toNat_lt
    rw [decodeString, if_pos rfl]
    simp only [sextet_digit, hequals]
    rw [ofNat_eq a (by omega)]
  | case4 => rfl

theorem encodeToString_injective : Function.Injective encodeToString :=
  Function.LeftInverse.injective decodeString_encodeToString

/-! ## Padding -/

theorem trimEquals_append_replicate {body : GoString} (hbody : ∀ c ∈ body, c ≠ equalsSign)
    (n : Nat) : trimEquals (body ++ List.replicate n equalsSign) = body := by
  have hright (s : GoString) (hs : ∀ c ∈ s, c ≠ equalsSign) :
      (s ++ List.replicate n equalsSign).rdropWhile (· = equalsSign) = s := by
    induction n with
    | zero =>
      rw [List.replicate_zero, List.append_nil, List.rdropWhile_eq_self_iff]
      intro hne
      simpa using hs _ (List.getLast_mem hne)
    | succ n ih =>
      rw [List.replicate_succ', ← List.append_assoc, List.rdropWhile_concat_pos _ _ _ (by simp), ih]
  cases body with
  | nil =>
    have hleft : (List.replicate n equalsSign).dropWhile (· = equalsSign) = [] := by simp
    rw [trimEquals, List.nil_append, hleft]
    rfl
  | cons c body =>
    have hc : c ≠ equalsSign := hbody c (List.mem_cons_self ..)
    have hleft : (c :: body ++ List.replicate n equalsSign).dropWhile (· = equalsSign) =
        c :: body ++ List.replicate n equalsSign := by simp [hc]
    rw [trimEquals, hleft, hright _ hbody]

/-- The equals signs at the end of the text of a number of bytes. -/
def padding (length : Nat) : Nat := (3 - length % 3) % 3

theorem padding_add_three (length : Nat) : padding (length + 3) = padding length := by
  rw [padding, Nat.add_mod_right]
  rfl

/-- The text, in groups of four, is free of equals signs up to the padding. -/
theorem encodeToString_eq_append (bytes : List UInt8) :
    ∃ body, encodeToString bytes = body ++ List.replicate (padding bytes.length) equalsSign ∧
      (∀ c ∈ body, c ≠ equalsSign) ∧ (body.length + padding bytes.length) % 4 = 0 := by
  fun_induction encodeToString bytes with
  | case1 a b c rest val ih =>
    obtain ⟨body, hencode, hbody, hlength⟩ := ih
    refine ⟨digit (val / 2 ^ 18) :: digit (val / 2 ^ 12) :: digit (val / 2 ^ 6) :: digit val ::
      body, ?_, ?_, ?_⟩
    · rw [hencode, List.length_cons, List.length_cons, List.length_cons, padding_add_three]
      rfl
    · simp only [List.forall_mem_cons, ne_eq, digit_ne_equalsSign, not_false_eq_true, true_and]
      exact hbody
    · simp only [List.length_cons, padding_add_three]
      omega
  | case2 a b val =>
    refine ⟨[digit (val / 2 ^ 18), digit (val / 2 ^ 12), digit (val / 2 ^ 6)], rfl, ?_, ?_⟩
    · simp [digit_ne_equalsSign]
    · simp [padding]
  | case3 a val =>
    refine ⟨[digit (val / 2 ^ 18), digit (val / 2 ^ 12)], rfl, ?_, by simp [padding]⟩
    simp [digit_ne_equalsSign]
  | case4 => exact ⟨[], rfl, by simp, rfl⟩

/-- `strings.Trim` takes the padding away, and nothing else. -/
theorem encodeToString_eq_trimEquals (bytes : List UInt8) :
    encodeToString bytes = trimEquals (encodeToString bytes) ++
      List.replicate (padding bytes.length) equalsSign := by
  obtain ⟨body, hencode, hbody, -⟩ := encodeToString_eq_append bytes
  rw [hencode, trimEquals_append_replicate hbody]

end Base64

-- ---------------------------------------------------------------------------
-- The key that the node reads
-- ---------------------------------------------------------------------------

namespace PublicKey

/-- A public key in its frame, with the base64 text on one line. -/
def ofDer (der : List UInt8) : PublicKey :=
  ⟨header ++ [newline] ++ Base64.encodeToString der ++ [newline] ++ footer⟩

theorem new_eq_ofDer {der : List UInt8} {address : String} :
    new address = ofDer der ↔ padKey (ofString address) = Base64.encodeToString der := by
  constructor
  · intro h
    have htext := congrArg PublicKey.key h
    exact List.append_cancel_left (List.append_cancel_right (List.append_cancel_right htext))
  · intro h
    have hbytes : address.toUTF8.data.toList = ofString address := rfl
    rw [new, buildKey, hbytes, h]
    rfl

/-- A text without equals signs that lacks its padding, or a part of it. -/
theorem padKey_eq_append_iff {body key : GoString} {n : Nat} (hbody : ∀ c ∈ body, c ≠ equalsSign)
    (hn : n ≤ 2) (hlength : (body.length + n) % 4 = 0) :
    padKey key = body ++ List.replicate n equalsSign ↔
      ∃ k ≤ n, key = body ++ List.replicate k equalsSign := by
  constructor
  · intro h
    rw [padKey_eq] at h
    change key ++ List.replicate (missing key.length) equalsSign = _ at h
    obtain hle | hlt := le_or_gt (missing key.length) n
    · refine ⟨n - missing key.length, Nat.sub_le .., ?_⟩
      have hsplit : List.replicate n equalsSign =
          List.replicate (n - missing key.length) equalsSign ++
            List.replicate (missing key.length) equalsSign := by
        rw [← List.replicate_add, Nat.sub_add_cancel hle]
      rw [hsplit, ← List.append_assoc] at h
      exact List.append_cancel_right h
    · -- The text would end with an equals sign of the padding.
      exfalso
      have hsplit : List.replicate (missing key.length) equalsSign =
          List.replicate (missing key.length - n) equalsSign ++ List.replicate n equalsSign := by
        rw [← List.replicate_add, Nat.sub_add_cancel hlt.le]
      rw [hsplit, ← List.append_assoc] at h
      have hend := List.append_cancel_right h
      have hmem : equalsSign ∈ body := by
        rw [← hend]
        exact List.mem_append_right _ (List.mem_replicate.mpr ⟨by omega, rfl⟩)
      exact hbody _ hmem rfl
  · rintro ⟨k, hk, rfl⟩
    have hmissing : missing (body ++ List.replicate k equalsSign).length = n - k := by
      rw [List.length_append, List.length_replicate, missing]
      omega
    rw [padKey_eq, hmissing, List.append_assoc]
    change body ++ (List.replicate k equalsSign ++ List.replicate (n - k) equalsSign) = _
    rw [← List.replicate_add, Nat.add_sub_cancel' hk]

/-- The node reads a key from its trimmed text, with none or some of the padding put
    back, and from nothing else. -/
theorem new_eq_ofDer_iff {der : List UInt8} {address : String} :
    new address = ofDer der ↔ ∃ n ≤ Base64.padding der.length,
      ofString address = trimEquals (Base64.encodeToString der) ++ List.replicate n equalsSign := by
  obtain ⟨body, hencode, hbody, hlength⟩ := Base64.encodeToString_eq_append der
  have htrim : trimEquals (Base64.encodeToString der) = body := by
    rw [hencode, Base64.trimEquals_append_replicate hbody]
  have hpadding : Base64.padding der.length ≤ 2 := by
    rw [Base64.padding]
    omega
  rw [new_eq_ofDer, htrim, hencode, padKey_eq_append_iff hbody hpadding hlength]

end PublicKey

namespace KeyPair

theorem padding_publicPkix (key : KeyPair) : Base64.padding key.publicPkix.length = 2 := by
  rw [key.publicPkix_length]
  rfl

theorem address_inj {key key' : KeyPair} (h : key.address = key'.address) :
    key.publicPkix = key'.publicPkix := by
  apply Base64.encodeToString_injective
  rw [Base64.encodeToString_eq_trimEquals key.publicPkix,
    Base64.encodeToString_eq_trimEquals key'.publicPkix, padding_publicPkix, padding_publicPkix]
  change key.address ++ _ = key'.address ++ _
  rw [h]

theorem new_eq_ofDer {key : KeyPair} {address : String} (h : ofString address = key.address) :
    PublicKey.new address = PublicKey.ofDer key.publicPkix := by
  rw [PublicKey.new_eq_ofDer_iff]
  refine ⟨0, Nat.zero_le _, ?_⟩
  rw [List.replicate_zero, List.append_nil, h]
  rfl

/-- The node reads the key of a wallet from the address of the wallet, also from that
    address with one or two equals signs, and from nothing else. The address belongs to
    no other key. -/
theorem spellings (key : KeyPair) :
    (∀ address : String, PublicKey.new address = PublicKey.ofDer key.publicPkix ↔
      ofString address ∈ [key.address, key.address ++ [equalsSign],
        key.address ++ [equalsSign, equalsSign]]) ∧
    ∀ key' : KeyPair, key'.address = key.address → key'.publicPkix = key.publicPkix := by
  refine ⟨fun address => ?_, fun key' h => address_inj h⟩
  have htrim : trimEquals (Base64.encodeToString key.publicPkix) = key.address := rfl
  rw [PublicKey.new_eq_ofDer_iff, padding_publicPkix, htrim]
  simp only [List.mem_cons, List.not_mem_nil, or_false]
  constructor
  · rintro ⟨n, hn, h⟩
    interval_cases n
    · exact .inl (by simpa using h)
    · exact .inr (.inl h)
    · exact .inr (.inr h)
  · rintro (h | h | h)
    · exact ⟨0, by decide, by simpa using h⟩
    · exact ⟨1, by decide, h⟩
    · exact ⟨2, by decide, h⟩

end KeyPair

-- ---------------------------------------------------------------------------
-- Spending
-- ---------------------------------------------------------------------------

/-- OpenSSL reads a public key of this length in its frame for what its bytes stand for. -/
def OpenSsl.ReadsPem {K : Type} (openSsl : OpenSsl K) (parse : List UInt8 → Option K) : Prop :=
  ∀ der : List UInt8, der.length = 91 → openSsl.readKey (PublicKey.ofDer der).key = parse der

/-- What Go signs with the private key, OpenSSL verifies with the public key. -/
def KeyPair.Signs {K : Type} (key : KeyPair) (openSsl : OpenSsl K) (parse : List UInt8 → Option K)
    (services : Services) : Prop :=
  ∃ k, parse key.publicPkix = some k ∧ openSsl.assignKey k = 1 ∧ openSsl.verifyInit k = 1 ∧
    ∀ text, ∃ signature, services.sign key.privatePem (services.sum256 text) = .ok signature ∧
      openSsl.verify k signature (services.sum256 text) = 1

section

variable {K : Type} {openSsl : OpenSsl K} {parse : List UInt8 → Option K} {services : Services}

/-- The node verifies with the address of a key what the key signs. -/
theorem KeyPair.Signs.verify {key : KeyPair} (h : key.Signs openSsl parse services)
    (hreads : openSsl.ReadsPem parse) (text : GoString) :
    ∃ signature, services.sign key.privatePem (services.sum256 text) = .ok signature ∧
      ∀ address, ofString address = key.address →
        (PublicKey.new address).verify openSsl ⟨services.sum256 text⟩ ⟨signature⟩ = .ok true := by
  obtain ⟨k, hparse, hassign, hinit, hsign⟩ := h
  obtain ⟨signature, hsignature, hverify⟩ := hsign text
  refine ⟨signature, hsignature, fun address haddress => ?_⟩
  have hread : openSsl.readKey (PublicKey.new address).key = some k := by
    rw [KeyPair.new_eq_ofDer haddress, hreads _ key.publicPkix_length, hparse]
  exact PublicKey.verify_eq_true hread hassign hinit hverify

end

namespace Registry

/-- All wallets so far have readable names, and keys that sign. -/
structure Sound (dir : GoString) (Good : KeyPair → Prop) (r : Registry) : Prop where
  kept : Kept dir r
  durable : Durable dir r
  keys : ∀ call ∈ r.created, Good call.key

theorem Sound.step {dir : GoString} {Good : KeyPair → Prop} {r r' : Registry} {call : CreateCall}
    (h : Sound dir Good r) (hreadable : Readable call.name) (hkey : Good call.key)
    (hstep : r.step dir call = some r') : Sound dir Good r' where
  kept := h.kept.step hstep
  durable := (h.durable.step_iff h.kept hstep).mpr hreadable
  keys := by
    obtain ⟨w, -, rfl⟩ | ⟨-, -, hcreated⟩ := h.kept.step_cases hstep
    · exact h.keys
    · rw [hcreated, List.forall_mem_append]
      exact ⟨h.keys, List.forall_mem_singleton.mpr hkey⟩

/-- Every wallet that has been created is found, with the address of its key, and signs
    with its key file what the node verifies with its address. -/
def Spendable [Env] (dir : GoString) (services : Services) (r : Registry) : Prop :=
  ∀ call ∈ r.created, ∃ w, (findWallet dir call.name r.storage).1 = .ok (some w) ∧
    w.address = call.key.address ∧ w.VerifiesOwn r.storage services

theorem Sound.spendable {K : Type} {openSsl : OpenSsl K} {parse : List UInt8 → Option K}
    {services : Services} {dir : GoString} {r : Registry} (env : Env)
    (hreads : openSsl.ReadsPem parse)
    (h : Sound dir (fun key => key.Signs openSsl parse services) r) :
    letI := env.verifying openSsl
    Spendable dir services r := by
  intro call hcall
  obtain ⟨hfound, hfile, -⟩ := h.durable call hcall
  have hsigns := (h.keys call hcall).verify hreads
  exact ⟨call.wallet dir, hfound, rfl, call.key.privatePem, hfile, hsigns⟩

/-- Whatever wallets with readable names are created, one after the other: all of them can
    spend at all times what is sent to their addresses. -/
theorem everyState_spendable {K : Type} {openSsl : OpenSsl K} {parse : List UInt8 → Option K}
    {services : Services} (env : Env) (dir : GoString) {calls : List CreateCall}
    (hreads : openSsl.ReadsPem parse) (hreadable : ∀ call ∈ calls, Readable call.name)
    (hkeys : ∀ call ∈ calls, call.key.Signs openSsl parse services) :
    letI := env.verifying openSsl
    EveryState (step dir) (Spendable dir services) new calls := by
  have hnew : Sound dir (fun key => key.Signs openSsl parse services) new :=
    ⟨kept_new dir, List.forall_mem_nil _, List.forall_mem_nil _⟩
  have hsteps : EveryStep (step dir)
      (fun _ call => Readable call.name ∧ call.key.Signs openSsl parse services) new calls :=
    (everyStep_iff_forall_mem (exists_step dir)).mpr
      fun call hcall => ⟨hreadable call hcall, hkeys call hcall⟩
  have hsound := EveryStep.everyState
    (fun r call r' h hq hstep => h.step hq.1 hq.2 hstep) hnew hsteps
  exact hsound.mono fun r h => h.spendable env hreads

end Registry

/-! ## Two wallets -/

/-- Between the header and the footer. -/
def framed (text : List UInt8) : List UInt8 :=
  (text.drop (PublicKey.header.length + 1)).take
    (text.length - (PublicKey.header.length + PublicKey.footer.length + 2))

/-- Keys are their bytes, and a signature is the bytes of the public key before the hash. -/
def bareOpenSsl : OpenSsl (List UInt8) where
  readKey text :=
    let der := Base64.decodeString (framed text)
    if text = (PublicKey.ofDer der).key ∧ der.length = 91 then some der else none
  assignKey _ := 1
  verifyInit _ := 1
  verify der sig hash := if sig = der ++ hash then 1 else 0
  errorString := ""

def bareServices : Services where
  unspent := .ok (TransactionUnspentOutputs.toJson [])
  latest := .ok (TransactionList.toJson ⟨[]⟩)
  post := .ok ()
  sum256 text := text
  sign privatePem hash := .ok (privatePem ++ hash)

/-- The private key is the public key. -/
def createBare (name : GoString) (byte : UInt8) (noNewline : newline ∉ name)
    (noSlash : slash ∉ name) : CreateCall :=
  ⟨name, ⟨List.replicate 91 byte, List.replicate 91 byte, List.length_replicate⟩, noNewline,
    noSlash⟩

theorem framed_ofDer (der : List UInt8) :
    framed (PublicKey.ofDer der).key = Base64.encodeToString der := by
  have htext : (PublicKey.ofDer der).key =
      (PublicKey.header ++ [newline]) ++
        (Base64.encodeToString der ++ ([newline] ++ PublicKey.footer)) := by
    simp [PublicKey.ofDer]
  have hlength : (PublicKey.ofDer der).key.length -
      (PublicKey.header.length + PublicKey.footer.length + 2) =
        (Base64.encodeToString der).length := by
    rw [htext]
    simp only [List.length_append, List.length_singleton]
    omega
  rw [framed, hlength, htext, List.drop_left' (by simp), List.take_left' rfl]

theorem bareOpenSsl_readsPem : bareOpenSsl.ReadsPem some := by
  intro der hder
  have hread : Base64.decodeString (framed (PublicKey.ofDer der).key) = der := by
    rw [framed_ofDer, Base64.decodeString_encodeToString]
  simp only [bareOpenSsl, hread, hder, and_self, if_true]

theorem createBare_signs {name : GoString} {byte : UInt8} (noNewline : newline ∉ name)
    (noSlash : slash ∉ name) :
    (createBare name byte noNewline noSlash).key.Signs bareOpenSsl some bareServices :=
  ⟨List.replicate 91 byte, rfl, rfl, rfl, fun _ => ⟨_, rfl, if_pos rfl⟩⟩

/-- The wallets of Alice and Bob. -/
def createBoth : List CreateCall :=
  [createBare (ofString "alice") 1 (by decide) (by decide),
    createBare (ofString "bob") 2 (by decide) (by decide)]

theorem Registry.everyState_spendable_both :
    letI := plainBuild.verifying bareOpenSsl
    EveryState (step storageDir) (Spendable storageDir bareServices) new createBoth := by
  refine everyState_spendable plainBuild storageDir bareOpenSsl_readsPem ?_ ?_
  · intro call hcall
    simp only [createBoth, List.mem_cons, List.not_mem_nil, or_false] at hcall
    rcases hcall with rfl | rfl
    · exact ⟨by decide +kernel, by decide +kernel⟩
    · exact ⟨by decide +kernel, by decide +kernel⟩
  · intro call hcall
    simp only [createBoth, List.mem_cons, List.not_mem_nil, or_false] at hcall
    rcases hcall with rfl | rfl
    · exact createBare_signs _ _
    · exact createBare_signs _ _

end BuenzliCoin
