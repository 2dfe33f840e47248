-- SUMMARY: The wallet registry: the files that it keeps, and which wallets are found again once they are created.
import BuenzliCoin.Lib.Except
import BuenzliCoin.Lib.Pattern
import BuenzliCoin.Lib.Runs
import BuenzliCoin.Wallet.Go

/-!
# Registry

The storage directory holds a key file for each wallet, and the file `wallets`
with a line for each. Wallets are located by reading that file back.
-/

namespace BuenzliCoin

open GoString Filepath Runs Pattern

-- ---------------------------------------------------------------------------
-- Storage
-- ---------------------------------------------------------------------------

/-- The files, and the paths at which `os.Create` has found a file and truncated it.
    No file operation fails. -/
structure Storage where
  files : GoString → Option GoString
  truncated : List GoString

namespace Storage

def empty : Storage := ⟨fun _ => none, []⟩

def write (s : Storage) (path content : GoString) : Storage :=
  { s with files := Function.update s.files path (some content) }

def read (s : Storage) (path : GoString) : GoString := (s.files path).getD []

/-- `os.OpenFile` with the flag `O_CREATE` -/
def openFile (s : Storage) (path : GoString) : Storage := s.write path (s.read path)

/-- `os.Create` -/
def create (s : Storage) (path : GoString) : Storage :=
  { s.write path [] with
    truncated := if (s.files path).isSome then path :: s.truncated else s.truncated }

/-- What is written goes to the end of the file. -/
def append (s : Storage) (path content : GoString) : Storage :=
  s.write path (s.read path ++ content)

@[simp] theorem read_write (s : Storage) (path content : GoString) :
    (s.write path content).read path = content := by
  simp [read, write]

@[simp] theorem files_write_of_ne (s : Storage) {path path' : GoString} (content : GoString)
    (h : path' ≠ path) : (s.write path content).files path' = s.files path' :=
  Function.update_of_ne h ..

@[simp] theorem truncated_write (s : Storage) (path content : GoString) :
    (s.write path content).truncated = s.truncated := rfl

theorem files_openFile {s : Storage} {path content : GoString} (h : s.files path = some content)
    (path' : GoString) : (s.openFile path').files path = some content := by
  by_cases heq : path = path'
  · subst heq
    simp [openFile, write, read, h]
  · rw [openFile, files_write_of_ne _ _ heq, h]

theorem read_openFile (s : Storage) (path : GoString) :
    (s.openFile path).read path = s.read path := s.read_write path _

end Storage

-- ---------------------------------------------------------------------------
-- Wallets
-- ---------------------------------------------------------------------------

structure Wallet where
  name : GoString
  key : GoString
  address : GoString
  deriving DecidableEq

/-- `[[:alnum:]]` -/
def isAlnum (c : UInt8) : Bool :=
  (48 ≤ c ∧ c ≤ 57) ∨ (65 ≤ c ∧ c ≤ 90) ∨ (97 ≤ c ∧ c ≤ 122)

/-- `[A-Za-z0-9+/=]` -/
def isAddress (c : UInt8) : Bool := isAlnum c ∨ c = 43 ∨ c = slash ∨ c = equalsSign

/-- `([[:alnum:]]*) (.*) ([A-Za-z0-9+/=]*)`. Go matches runes; a space is never a
    part of a longer one, so that it makes no difference to match bytes. -/
def walletRe : Pattern UInt8 :=
  .seq (.capture (.many isAlnum)) <|
    .seq (.char (· = space)) <|
      .seq (.capture (.many (· ≠ newline))) <|
        .seq (.char (· = space)) (.capture (.many isAddress))

/-- The body of the loop of `getWallets`. -/
def parseWallet (dir walletId : GoString) : Except GoString Wallet :=
  match (walletRe.find? walletId).map Way.groups with
  | some [name, key, address] => .ok { name, key := join dir key, address }
  | _ => .error (ofString "malformed wallet identifier '" ++ walletId ++ ofString "'")

def walletsFilePath (dir : GoString) : GoString := join dir (ofString "wallets")

/-- The scanner stops without a word at a line that is too long. -/
def getWallets (dir : GoString) (s : Storage) : Except GoString (List Wallet) × Storage :=
  let s := s.openFile (walletsFilePath dir)
  ((Bufio.scanLines (s.read (walletsFilePath dir))).mapM (parseWallet dir), s)

def findWallet (dir name : GoString) (s : Storage) : Except GoString (Option Wallet) × Storage :=
  match getWallets dir s with
  | (.error e, s) => (.error e, s)
  | (.ok ws, s) => (.ok (ws.find? (·.name = name)), s)

theorem findWallet_snd (dir name : GoString) (s : Storage) :
    (findWallet dir name s).2 = s.openFile (walletsFilePath dir) := by
  unfold findWallet
  split
  · next h => exact (congrArg Prod.snd h).symm
  · next h => exact (congrArg Prod.snd h).symm

/-- A key pair over P-256: the private key as `pem.Encode` writes it, and the bytes
    of `x509.MarshalPKIXPublicKey`, of which there are always 91. -/
structure KeyPair where
  privatePem : GoString
  publicPkix : List UInt8
  publicPkix_length : publicPkix.length = 91
  deriving DecidableEq

/-- `keyStrPublic` -/
def KeyPair.address (key : KeyPair) : GoString :=
  trimEquals (Base64.encodeToString key.publicPkix)

def keyFileName (name : GoString) : GoString := ofString "id_ecdsa_" ++ name

def keyFilePath (dir name : GoString) : GoString := join dir (keyFileName name)

/-- `walletStr` up to the line break. -/
def walletId (name : GoString) (key : KeyPair) : GoString :=
  name ++ [space] ++ keyFileName name ++ [space] ++ key.address

/-- `createWallet(name)`, where `key` is the key pair that it generates. -/
def createWallet (dir name : GoString) (key : KeyPair) (s : Storage) :
    Except GoString Unit × Storage :=
  match findWallet dir name s with
  | (.error e, s) => (.error e, s)
  | (.ok (some _), s) => (.error (ofString "wallet '" ++ name ++ ofString "' already exist"), s)
  | (.ok none, s) =>
    let s := (s.create (keyFilePath dir name)).append (keyFilePath dir name) key.privatePem
    let s := s.openFile (walletsFilePath dir)
    (.ok (), s.append (walletsFilePath dir) (walletId name key ++ [newline]))

-- ---------------------------------------------------------------------------
-- Reading back
-- ---------------------------------------------------------------------------

/-- A call of `createWallet`, with a name free of line breaks and path separators,
    and the key pair that it generates. -/
structure CreateCall where
  name : GoString
  key : KeyPair
  noNewline : newline ∉ name
  noSlash : slash ∉ name
  deriving DecidableEq

/-- The wallet that a call writes. -/
def CreateCall.wallet (dir : GoString) (call : CreateCall) : Wallet :=
  ⟨call.name, keyFilePath dir call.name, call.key.address⟩

/-- The wallet that `parseWallet` makes of the line of a call. -/
def CreateCall.readBack (dir : GoString) (call : CreateCall) : Wallet :=
  let fields := call.name ++ space :: keyFileName call.name
  ⟨(fields.takeWhile (· ≠ space)).rtakeWhile isAlnum,
    join dir (fields.dropWhile (· ≠ space)).tail, call.key.address⟩

/-- What `walletRe` asks for after the name. -/
def fieldsRe : Pattern UInt8 :=
  .seq (.char (· = space)) <|
    .seq (.capture (.many (· ≠ newline))) <|
      .seq (.char (· = space)) (.capture (.many isAddress))

theorem isAlnum_space : isAlnum space = false := by decide

theorem ne_space_of_isAlnum {c : UInt8} (h : isAlnum c) : c ≠ space := by
  rintro rfl
  rw [isAlnum_space] at h
  cases h

theorem fieldsRe_fails {s : GoString} (h : s.head? ≠ some space) : Fails fieldsRe s := by
  apply Fails.char_seq
  intro c hc
  apply decide_eq_false
  rintro rfl
  exact h hc

/-- The second group backs off to the last space. -/
theorem fieldsRe_first {x y : GoString} (hx : newline ∉ x) (hy : space ∉ y) :
    ∃ w, First fieldsRe (space :: (x ++ space :: y)) w ∧ w.groups = [x, y.takeWhile isAddress] := by
  have haddress : First (.capture (.many isAddress)) y _ := (First.many isAddress y).capture
  have hlast : First (.seq (.char (· = space)) (.capture (.many isAddress))) (space :: y) _ :=
    haddress.char_seq (decide_eq_true rfl)
  have hkey := First.capture_many_seq (p := (· ≠ newline)) (x := x) ?_ hlast ?_
  · exact ⟨_, hkey.char_seq (decide_eq_true rfl), rfl⟩
  · intro c hc
    apply decide_eq_true
    rintro rfl
    exact hx hc
  · intro z y' hz _ heq
    apply Fails.char_seq
    intro c hc
    apply decide_eq_false
    rintro rfl
    obtain ⟨d, z, rfl⟩ := List.exists_cons_of_ne_nil hz
    rw [List.cons_append] at heq
    have hmem : space ∈ z ++ y' := List.mem_append_right _ (List.mem_of_mem_head? hc)
    rw [← (List.cons.inj heq).2] at hmem
    exact hy hmem

theorem walletRe_first {w rest : GoString} {fields : Way UInt8} (hw : ∀ c ∈ w, isAlnum c)
    (h : First fieldsRe (space :: rest) fields) :
    ∃ way, First walletRe (w ++ space :: rest) way ∧ way.groups = w :: fields.groups := by
  refine ⟨_, First.capture_many_seq hw h ?_, rfl⟩
  intro z s hz hall heq
  obtain ⟨c, z, rfl⟩ := List.exists_cons_of_ne_nil hz
  obtain ⟨hc, -⟩ := List.forall_mem_cons.mp hall
  exact absurd (List.cons.inj heq).1.symm (ne_space_of_isAlnum hc)

/-- Where the name would not reach up to the first space. -/
theorem walletRe_fails {w : GoString} (hw : space ∉ w) (h : ¬ ∀ c ∈ w, isAlnum c)
    (rest : GoString) : Fails walletRe (w ++ space :: rest) := by
  apply Fails.capture_many_seq
  intro x y hx heq
  apply fieldsRe_fails
  intro hy
  obtain ⟨z, rfl, -⟩ | ⟨z, rfl, rfl⟩ := List.append_eq_append_iff.mp heq
  · exact h fun c hc => hx c (List.mem_append_left _ hc)
  · cases z with
    | nil =>
      rw [List.append_nil] at h
      exact h hx
    | cons d z =>
      cases hy
      exact hw (List.mem_append_right _ (List.mem_cons_self ..))

theorem rtakeWhile_cons_of_not_all {p : UInt8 → Bool} {c : UInt8} {w : GoString}
    (h : ¬ ∀ d ∈ c :: w, p d) : (c :: w).rtakeWhile p = w.rtakeWhile p := by
  rw [List.rtakeWhile, List.rtakeWhile, List.reverse_cons, List.takeWhile_append]
  split
  · next hlength =>
    have hw : ∀ d ∈ w, p d := by
      have hall := List.takeWhile_eq_self_iff.mp
        ((List.takeWhile_prefix p).eq_of_length hlength)
      exact fun d hd => hall d (List.mem_reverse.mpr hd)
    have hc : ¬ p c := fun hc => h (List.forall_mem_cons.mpr ⟨hc, hw⟩)
    simp [hc, List.takeWhile_eq_self_iff.mpr fun d hd => hw d (List.mem_reverse.mp hd)]
  · rfl

/-- The match on a line with two spaces at least: before the first, between the
    first and the last, and after the last. -/
theorem find?_walletRe {w x y : GoString} (hw : space ∉ w) (hx : newline ∉ x) (hy : space ∉ y) :
    (walletRe.find? (w ++ space :: (x ++ space :: y))).map Way.groups =
      some [w.rtakeWhile isAlnum, x, y.takeWhile isAddress] := by
  obtain ⟨fields, hfields, hgroups⟩ := fieldsRe_first hx hy
  induction w with
  | nil =>
    obtain ⟨way, hway, hall⟩ := walletRe_first (List.forall_mem_nil _) hfields
    rw [find?_of_first hway, Option.map_some, hall, hgroups]
    rfl
  | cons c w ih =>
    by_cases hall : ∀ d ∈ c :: w, isAlnum d
    · obtain ⟨way, hway, hway'⟩ := walletRe_first hall hfields
      rw [find?_of_first hway, Option.map_some, hway', hgroups,
        List.rtakeWhile_eq_self_iff.mpr hall]
    · have hfails := walletRe_fails hw hall (x ++ space :: y)
      rw [List.cons_append] at hfails ⊢
      rw [find?_of_fails hfails, ih (not_or.mp (mt List.mem_cons.mpr hw)).2,
        rtakeWhile_cons_of_not_all hall]

/-! ## Lines -/

theorem alphabet_spec : ∀ c ∈ Base64.alphabet,
    isAddress c ∧ c ≠ space ∧ c ≠ newline ∧ c ≠ carriageReturn := by decide +kernel

theorem KeyPair.address_spec (key : KeyPair) :
    key.address.length = 122 ∧ ∀ c ∈ key.address, c ∈ Base64.alphabet :=
  Base64.trimEquals_encodeToString 30 key.publicPkix key.publicPkix_length

theorem KeyPair.isAddress_of_mem {key : KeyPair} {c : UInt8} (hc : c ∈ key.address) : isAddress c :=
  (alphabet_spec c (key.address_spec.2 c hc)).1

theorem KeyPair.space_not_mem (key : KeyPair) : space ∉ key.address :=
  fun hc => (alphabet_spec _ (key.address_spec.2 _ hc)).2.1 rfl

theorem KeyPair.newline_not_mem (key : KeyPair) : newline ∉ key.address :=
  fun hc => (alphabet_spec _ (key.address_spec.2 _ hc)).2.2.1 rfl

theorem newline_not_mem_keyFileName {name : GoString} (h : newline ∉ name) :
    newline ∉ keyFileName name :=
  fun hc => (List.mem_append.mp hc).elim (by decide) h

/-- The fields of a line, with the first space made visible. -/
theorem takeWhile_dropWhile_space {fields : GoString} (h : space ∈ fields) :
    fields = fields.takeWhile (· ≠ space) ++ space :: (fields.dropWhile (· ≠ space)).tail ∧
      space ∉ fields.takeWhile (· ≠ space) := by
  obtain ⟨w, x, rfl, hw⟩ := List.eq_append_cons_of_mem h
  have hall : ∀ c ∈ w, decide (c ≠ space) := by
    intro c hc
    apply decide_eq_true
    rintro rfl
    exact hw hc
  rw [List.takeWhile_append_of_pos hall, List.dropWhile_append_of_pos hall]
  simpa using hw

theorem parseWallet_walletId (dir : GoString) (call : CreateCall) :
    parseWallet dir (walletId call.name call.key) = .ok (call.readBack dir) := by
  let fields := call.name ++ space :: keyFileName call.name
  have hspace : space ∈ fields := List.mem_append_right _ (List.mem_cons_self ..)
  have hnewline : newline ∉ fields := by
    intro hc
    obtain hc | hc := List.mem_append.mp hc
    · exact call.noNewline hc
    · obtain hc | hc := List.mem_cons.mp hc
      · exact absurd hc (by decide)
      · exact newline_not_mem_keyFileName call.noNewline hc
  obtain ⟨hfields, hfirst⟩ := takeWhile_dropWhile_space hspace
  have hline : walletId call.name call.key = fields.takeWhile (· ≠ space) ++
      space :: ((fields.dropWhile (· ≠ space)).tail ++ space :: call.key.address) :=
    calc walletId call.name call.key
        = fields ++ space :: call.key.address := by simp [walletId, fields]
      _ = fields.takeWhile (· ≠ space) ++ space :: (fields.dropWhile (· ≠ space)).tail ++
            space :: call.key.address := by rw [← hfields]
      _ = _ := by rw [List.append_assoc, List.cons_append]
  have hx : newline ∉ (fields.dropWhile (· ≠ space)).tail := by
    intro hc
    rw [hfields] at hnewline
    exact hnewline (List.mem_append_right _ (List.mem_cons_of_mem _ hc))
  have haddress : call.key.address.takeWhile isAddress = call.key.address :=
    List.takeWhile_eq_self_iff.mpr fun c hc => KeyPair.isAddress_of_mem hc
  rw [parseWallet, hline, find?_walletRe hfirst hx call.key.space_not_mem, haddress]
  rfl

theorem newline_not_mem_walletId (call : CreateCall) :
    newline ∉ walletId call.name call.key := by
  have hspace : newline ∉ [space] := by decide
  simp only [walletId, List.mem_append, not_or]
  exact ⟨⟨⟨⟨call.noNewline, hspace⟩, newline_not_mem_keyFileName call.noNewline⟩, hspace⟩,
    call.key.newline_not_mem⟩

theorem dropCR_walletId (name : GoString) (key : KeyPair) :
    Bufio.dropCR (walletId name key) = walletId name key := by
  have hne : key.address ≠ [] := by
    intro hnil
    exact absurd key.address_spec.1 (by simp [hnil])
  have hlast : (walletId name key).getLast? = some (key.address.getLast hne) := by
    rw [walletId, List.getLast?_append, List.getLast?_eq_some_getLast hne]
    rfl
  rw [Bufio.dropCR, hlast, if_neg]
  intro heq
  have hmem := key.address_spec.2 _ (List.getLast_mem hne)
  exact (alphabet_spec _ hmem).2.2.2 (Option.some.inj heq)

/-- The line of the call fits into the buffer of the scanner. -/
def CreateCall.Fits (call : CreateCall) : Prop :=
  (walletId call.name call.key).length < Bufio.maxScanTokenSize

instance : DecidablePred CreateCall.Fits := fun _ => inferInstanceAs (Decidable (_ < _))

/-- What the calls write to the file `wallets`. -/
def entries (calls : List CreateCall) : GoString :=
  calls.flatMap fun call => walletId call.name call.key ++ [newline]

theorem entries_concat (calls : List CreateCall) (call : CreateCall) :
    entries (calls ++ [call]) = entries calls ++ (walletId call.name call.key ++ [newline]) := by
  rw [entries, List.flatMap_append, List.flatMap_singleton]
  rfl

theorem scanLines_entries (calls : List CreateCall) :
    Bufio.scanLines (entries calls) =
      (calls.takeWhile (·.Fits)).map fun call => walletId call.name call.key := by
  induction calls with
  | nil => rfl
  | cons call calls ih =>
    have hentries : entries (call :: calls) =
        walletId call.name call.key ++ newline :: entries calls := by
      simp [entries]
    rw [hentries, Bufio.scanLines_append (newline_not_mem_walletId call), dropCR_walletId, ih,
      List.takeWhile_cons]
    by_cases hfits : call.Fits
    · rw [if_neg (not_le.mpr hfits), if_pos (decide_eq_true hfits), List.map_cons]
    · rw [if_pos (not_lt.mp hfits), if_neg (by simpa using hfits), List.map_nil]

/-- The wallets that are read back after these calls. -/
def walletsOf (dir : GoString) (calls : List CreateCall) : List Wallet :=
  (calls.takeWhile (·.Fits)).map (·.readBack dir)

theorem findWallet_eq {dir : GoString} {s : Storage} {calls : List CreateCall}
    (h : s.read (walletsFilePath dir) = entries calls) (name : GoString) :
    findWallet dir name s =
      (.ok ((walletsOf dir calls).find? (·.name = name)), s.openFile (walletsFilePath dir)) := by
  have hparse := Except.mapM_map_eq_ok
    fun (call : CreateCall) (_ : call ∈ calls.takeWhile (·.Fits)) => parseWallet_walletId dir call
  simp only [findWallet, getWallets, Storage.read_openFile, h, scanLines_entries, hparse]
  rfl

/-! ## Names -/

/-- The names that are found again: letters and digits only, and not too many. -/
def Readable (name : GoString) : Prop := (∀ c ∈ name, isAlnum c) ∧ name.length ≤ 32701

theorem CreateCall.fits_iff {call : CreateCall} : call.Fits ↔ call.name.length ≤ 32701 := by
  have hidLength : (ofString "id_ecdsa_").length = 9 := by decide
  simp only [Fits, walletId, keyFileName, List.length_append, List.length_singleton,
    call.key.address_spec.1, hidLength, Bufio.maxScanTokenSize]
  omega

/-- Whatever the name of a call is, the one that is read back is readable. -/
theorem CreateCall.readable_readBack (dir : GoString) {call : CreateCall} (h : call.Fits) :
    Readable (call.readBack dir).name := by
  constructor
  · exact fun c hc => List.mem_rtakeWhile_imp hc
  · have hword : (call.readBack dir).name.length ≤
        ((call.name ++ space :: keyFileName call.name).takeWhile (· ≠ space)).length :=
      (List.rtakeWhile_suffix _ _).length_le
    have hname : ((call.name ++ space :: keyFileName call.name).takeWhile (· ≠ space)).length ≤
        call.name.length := by
      rw [List.takeWhile_append]
      split
      · simp
      · exact (List.takeWhile_prefix _).length_le
    exact hword.trans (hname.trans (fits_iff.mp h))

theorem CreateCall.readBack_of_readable (dir : GoString) {call : CreateCall}
    (h : Readable call.name) : call.readBack dir = call.wallet dir := by
  have hall : ∀ c ∈ call.name, decide (c ≠ space) :=
    fun c hc => decide_eq_true (ne_space_of_isAlnum (h.1 c hc))
  have hname : (call.name ++ space :: keyFileName call.name).takeWhile (· ≠ space) = call.name := by
    rw [List.takeWhile_append_of_pos hall]
    simp
  have hkey : (call.name ++ space :: keyFileName call.name).dropWhile (· ≠ space) =
      space :: keyFileName call.name := by
    rw [List.dropWhile_append_of_pos hall]
    simp
  rw [readBack, hname, hkey, List.rtakeWhile_eq_self_iff.mpr h.1]
  rfl

theorem readable_of_find? {dir name : GoString} {calls : List CreateCall} {w : Wallet}
    (h : (walletsOf dir calls).find? (·.name = name) = some w) : Readable name := by
  obtain rfl : w.name = name := by simpa using List.find?_some h
  obtain ⟨call, hcall, rfl⟩ := List.mem_map.mp (List.mem_of_find?_eq_some h)
  exact call.readable_readBack dir (by simpa using List.mem_takeWhile_imp hcall)

/-- If all names are readable, all wallets are found. -/
theorem walletsOf_of_readable (dir : GoString) {calls : List CreateCall}
    (h : ∀ call ∈ calls, Readable call.name) : walletsOf dir calls = calls.map (·.wallet dir) := by
  have hfits : calls.takeWhile (·.Fits) = calls :=
    List.takeWhile_eq_self_iff.mpr fun call hcall =>
      decide_eq_true (CreateCall.fits_iff.mpr (h call hcall).2)
  rw [walletsOf, hfits]
  exact List.map_congr_left fun call hcall => call.readBack_of_readable dir (h call hcall)

/-! ## Paths -/

theorem head?_keyFileName (name : GoString) : (keyFileName name).head? = some 105 := rfl

theorem isEntry_keyFileName {name : GoString} (h : slash ∉ name) : IsEntry (keyFileName name) where
  noSlash hc := (List.mem_append.mp hc).elim (by decide) h
  nonempty heq :=
    absurd ((head?_keyFileName name).symm.trans (congrArg List.head? heq)) (by decide)
  notDot heq :=
    absurd ((head?_keyFileName name).symm.trans (congrArg List.head? heq)) (by decide)
  notDotDot heq :=
    absurd ((head?_keyFileName name).symm.trans (congrArg List.head? heq)) (by decide)

theorem isEntry_wallets : IsEntry (ofString "wallets") where
  noSlash := by decide
  nonempty := by decide
  notDot := by decide
  notDotDot := by decide

theorem CreateCall.keyFilePath_ne (dir : GoString) (call : CreateCall) :
    keyFilePath dir call.name ≠ walletsFilePath dir := by
  intro heq
  have hname := join_injective (isEntry_keyFileName call.noSlash) isEntry_wallets heq
  exact absurd ((head?_keyFileName call.name).symm.trans (congrArg List.head? hname)) (by decide)

theorem CreateCall.name_eq_of_keyFilePath {dir : GoString} {call call' : CreateCall}
    (h : keyFilePath dir call.name = keyFilePath dir call'.name) : call.name = call'.name :=
  List.append_cancel_left
    (join_injective (isEntry_keyFileName call.noSlash) (isEntry_keyFileName call'.noSlash) h)

-- ---------------------------------------------------------------------------
-- Runs
-- ---------------------------------------------------------------------------

/-- The storage directory, and the calls so far that have returned no error. -/
structure Registry where
  storage : Storage
  created : List CreateCall

namespace Registry

def new : Registry := ⟨.empty, []⟩

def step (dir : GoString) (r : Registry) (call : CreateCall) : Option Registry :=
  match createWallet dir call.name call.key r.storage with
  | (.ok (), storage) => some ⟨storage, r.created ++ [call]⟩
  | (.error _, storage) => some { r with storage }

theorem exists_step (dir : GoString) (r : Registry) (call : CreateCall) :
    ∃ r', step dir r call = some r' := by
  unfold step
  split
  · exact ⟨_, rfl⟩
  · exact ⟨_, rfl⟩

/-- The wallet of every call that has returned no error is found with what the call
    has written, and its key file has not been truncated. -/
def Durable (dir : GoString) (r : Registry) : Prop :=
  ∀ call ∈ r.created,
    (findWallet dir call.name r.storage).1 = .ok (some (call.wallet dir)) ∧
    r.storage.files (keyFilePath dir call.name) = some call.key.privatePem ∧
    keyFilePath dir call.name ∉ r.storage.truncated

/-- The files are those that the calls have written. -/
structure Kept (dir : GoString) (r : Registry) : Prop where
  wallets : r.storage.read (walletsFilePath dir) = entries r.created
  files : ∀ path, (r.storage.files path).isSome →
    path = walletsFilePath dir ∨ ∃ call ∈ r.created, path = keyFilePath dir call.name
  truncated : ∀ path ∈ r.storage.truncated, ∃ call ∈ r.created, path = keyFilePath dir call.name

theorem kept_new (dir : GoString) : Kept dir new where
  wallets := rfl
  files path h := by cases h
  truncated path h := by cases h

/-- What a call writes. -/
structure Stored (dir : GoString) (s : Storage) (call : CreateCall) (s' : Storage) : Prop where
  wallets : s'.read (walletsFilePath dir) =
    s.read (walletsFilePath dir) ++ (walletId call.name call.key ++ [newline])
  key : s'.files (keyFilePath dir call.name) = some call.key.privatePem
  other : ∀ path, path ≠ walletsFilePath dir → path ≠ keyFilePath dir call.name →
    s'.files path = s.files path
  truncated : s'.truncated =
    if (s.files (keyFilePath dir call.name)).isSome
    then keyFilePath dir call.name :: s.truncated else s.truncated

/-- A call returns an error if a wallet of that name is read back, and else it writes
    its key file and its line. -/
theorem Kept.step_cases {dir : GoString} {r r' : Registry} {call : CreateCall} (h : Kept dir r)
    (hstep : step dir r call = some r') :
    (∃ w, (walletsOf dir r.created).find? (·.name = call.name) = some w ∧
      r' = ⟨r.storage.openFile (walletsFilePath dir), r.created⟩) ∨
    ((walletsOf dir r.created).find? (·.name = call.name) = none ∧
      Stored dir r.storage call r'.storage ∧ r'.created = r.created ++ [call]) := by
  simp only [step, createWallet, findWallet_eq h.wallets] at hstep
  cases hfind : (walletsOf dir r.created).find? (·.name = call.name) with
  | some w =>
    rw [hfind] at hstep
    cases hstep
    exact .inl ⟨w, rfl, rfl⟩
  | none =>
    rw [hfind] at hstep
    cases hstep
    have hne := call.keyFilePath_ne dir
    refine .inr ⟨rfl, ⟨?_, ?_, ?_, ?_⟩, rfl⟩
    · simp [Storage.read, Storage.append, Storage.openFile, Storage.create, Storage.write, hne.symm]
    · simp [Storage.read, Storage.append, Storage.openFile, Storage.create, Storage.write, hne]
    · intro path hw hk
      simp [Storage.append, Storage.openFile, Storage.create, hw, hk]
    · simp [Storage.append, Storage.openFile, Storage.create, hne]

theorem Kept.openFile {dir : GoString} {r : Registry} (h : Kept dir r) :
    Kept dir ⟨r.storage.openFile (walletsFilePath dir), r.created⟩ where
  wallets := (r.storage.read_openFile _).trans h.wallets
  files path hpath := by
    by_cases heq : path = walletsFilePath dir
    · exact .inl heq
    · rw [Storage.openFile, Storage.files_write_of_ne _ _ heq] at hpath
      exact h.files path hpath
  truncated := h.truncated

theorem Kept.stored {dir : GoString} {r r' : Registry} {call : CreateCall} (h : Kept dir r)
    (hstored : Stored dir r.storage call r'.storage) (hcreated : r'.created = r.created ++ [call]) :
    Kept dir r' where
  wallets := by
    rw [hstored.wallets, h.wallets, hcreated, entries_concat]
  files path hpath := by
    rw [hcreated]
    by_cases hwallets : path = walletsFilePath dir
    · exact .inl hwallets
    · by_cases hkey : path = keyFilePath dir call.name
      · exact .inr ⟨call, List.mem_append_right _ (List.mem_singleton_self _), hkey⟩
      · rw [hstored.other path hwallets hkey] at hpath
        obtain heq | ⟨call', hcall', heq⟩ := h.files path hpath
        · exact .inl heq
        · exact .inr ⟨call', List.mem_append_left _ hcall', heq⟩
  truncated path hpath := by
    rw [hcreated]
    have hkept : path ∈ r.storage.truncated → ∃ call' ∈ r.created ++ [call],
        path = keyFilePath dir call'.name := by
      intro hpath
      obtain ⟨call', hcall', heq⟩ := h.truncated path hpath
      exact ⟨call', List.mem_append_left _ hcall', heq⟩
    rw [hstored.truncated] at hpath
    split at hpath
    · obtain heq | hpath := List.mem_cons.mp hpath
      · exact ⟨call, List.mem_append_right _ (List.mem_singleton_self _), heq⟩
      · exact hkept hpath
    · exact hkept hpath

theorem Kept.step {dir : GoString} {r r' : Registry} {call : CreateCall} (h : Kept dir r)
    (hstep : r.step dir call = some r') : Kept dir r' := by
  obtain ⟨w, -, rfl⟩ | ⟨-, hstored, hcreated⟩ := h.step_cases hstep
  · exact h.openFile
  · exact h.stored hstored hcreated

/-- What is durable has a readable name. -/
theorem Kept.readable {dir : GoString} {r : Registry} {call : CreateCall} (h : Kept dir r)
    (hfound : (findWallet dir call.name r.storage).1 = .ok (some (call.wallet dir))) :
    Readable call.name := by
  rw [findWallet_eq h.wallets] at hfound
  exact readable_of_find? (Except.ok.inj hfound)

/-- A key file is there only for a name that a call has had. -/
theorem Kept.fresh {dir : GoString} {r : Registry} {call : CreateCall} (h : Kept dir r)
    (hname : ∀ call' ∈ r.created, call'.name ≠ call.name) :
    ¬ (r.storage.files (keyFilePath dir call.name)).isSome ∧
      keyFilePath dir call.name ∉ r.storage.truncated := by
  have hpath : ¬ ∃ call' ∈ r.created, keyFilePath dir call.name = keyFilePath dir call'.name := by
    rintro ⟨call', hcall', heq⟩
    exact hname call' hcall' (CreateCall.name_eq_of_keyFilePath heq.symm)
  refine ⟨fun hsome => ?_, fun hmem => hpath (h.truncated _ hmem)⟩
  obtain heq | hmem := h.files _ hsome
  · exact call.keyFilePath_ne dir heq
  · exact hpath hmem

/-- A call whose name is readable is durable from then on, and leaves the others
    durable. -/
theorem Durable.stored {dir : GoString} {r r' : Registry} {call : CreateCall} (h : Kept dir r)
    (hdurable : Durable dir r) (hnone : (walletsOf dir r.created).find? (·.name = call.name) = none)
    (hstored : Stored dir r.storage call r'.storage) (hcreated : r'.created = r.created ++ [call])
    (hreadable : Readable call.name) : Durable dir r' := by
  have hwallets := (h.stored hstored hcreated).wallets
  have hold : ∀ call' ∈ r.created, Readable call'.name :=
    fun call' hcall' => h.readable (hdurable call' hcall').1
  have hread : walletsOf dir r.created = r.created.map (·.wallet dir) :=
    walletsOf_of_readable dir hold
  have hread' : walletsOf dir r'.created = r.created.map (·.wallet dir) ++ [call.wallet dir] := by
    rw [hcreated, walletsOf_of_readable dir, List.map_append]
    · rfl
    · rw [List.forall_mem_append]
      exact ⟨hold, List.forall_mem_singleton.mpr hreadable⟩
  rw [hread] at hnone
  -- No wallet so far has this name, so none has this key file.
  have hname : ∀ call' ∈ r.created, call'.name ≠ call.name := by
    intro call' hcall' heq
    have hne := List.find?_eq_none.mp hnone _ (List.mem_map_of_mem hcall')
    exact hne (decide_eq_true heq)
  obtain ⟨hfresh, huntouched⟩ := h.fresh hname
  have htruncated := hstored.truncated
  rw [if_neg hfresh] at htruncated
  intro call' hcall'
  rw [findWallet_eq hwallets, hread', List.find?_append, htruncated]
  rw [hcreated] at hcall'
  obtain hcall' | hcall' := List.mem_append.mp hcall'
  · obtain ⟨hfound, hfile, hkept⟩ := hdurable call' hcall'
    rw [findWallet_eq h.wallets, hread] at hfound
    have hpath : keyFilePath dir call'.name ≠ keyFilePath dir call.name :=
      fun heq => hname call' hcall' (CreateCall.name_eq_of_keyFilePath heq)
    rw [Except.ok.inj hfound, hstored.other _ (call'.keyFilePath_ne dir) hpath]
    exact ⟨rfl, hfile, hkept⟩
  · obtain rfl := List.mem_singleton.mp hcall'
    refine ⟨?_, hstored.key, huntouched⟩
    rw [hnone]
    simp [CreateCall.wallet]

/-- One call keeps all wallets durable exactly if its name is readable. -/
theorem Durable.step_iff {dir : GoString} {r r' : Registry} {call : CreateCall} (h : Kept dir r)
    (hdurable : Durable dir r) (hstep : r.step dir call = some r') :
    Durable dir r' ↔ Readable call.name := by
  have h' := h.step hstep
  obtain ⟨w, hfound, rfl⟩ | ⟨hnone, hstored, hcreated⟩ := h.step_cases hstep
  · refine ⟨fun _ => readable_of_find? hfound, fun _ => ?_⟩
    intro call' hcall'
    obtain ⟨hwallet, hfile, hkept⟩ := hdurable call' hcall'
    refine ⟨?_, ?_, hkept⟩
    · rw [findWallet_eq h'.wallets]
      rw [findWallet_eq h.wallets] at hwallet
      exact hwallet
    · rw [Storage.openFile, Storage.files_write_of_ne _ _ (call'.keyFilePath_ne dir)]
      exact hfile
  · refine ⟨fun hdurable' => ?_, hdurable.stored h hnone hstored hcreated⟩
    have hmem : call ∈ r'.created := by
      rw [hcreated]
      exact List.mem_append_right _ (List.mem_singleton_self _)
    exact h'.readable (hdurable' call hmem).1

/-- Whatever calls are made, one after the other: all that return no error are
    durable throughout exactly if all names are readable. -/
theorem everyState_durable_iff (dir : GoString) (calls : List CreateCall) :
    EveryState (step dir) (Durable dir) new calls ↔ ∀ call ∈ calls, Readable call.name := by
  have hdurable : Durable dir new := fun call hcall => by cases hcall
  rw [everyState_iff_everyStep_of_invariant (Q := fun _ call => Readable call.name)
    (fun _ _ _ h hstep => Kept.step h hstep)
    (fun _ _ _ h hdurable hstep => Durable.step_iff h hdurable hstep) (kept_new dir) hdurable]
  exact everyStep_iff_forall_mem (exists_step dir)

end Registry

/-- Of this name, `getWallets` only reads "my". -/
def createMyWallet (privatePem : GoString) : CreateCall where
  name := ofString "my wallet"
  key := ⟨privatePem, List.replicate 91 0, rfl⟩
  noNewline := by decide
  noSlash := by decide

/-- Both calls return no error; the second truncates the key file of the first, and no
    wallet of that name is found. -/
theorem Registry.not_durable_my_wallet :
    let dir := ofString ".buenzli"
    let name := ofString "my wallet"
    let calls := [createMyWallet (ofString "first"), createMyWallet (ofString "second")]
    ∃ r, run (step dir) new calls = some r ∧ r.created = calls ∧
      keyFilePath dir name ∈ r.storage.truncated ∧
      (findWallet dir name r.storage).1 = .ok none ∧
      ¬ EveryState (step dir) (Durable dir) new calls := by
  intro dir name calls
  have hrun : ((run (step dir) new calls).map fun r => (r.created,
      decide (keyFilePath dir name ∈ r.storage.truncated),
      (findWallet dir name r.storage).1)) = some (calls, true, .ok none) := by decide +kernel
  obtain ⟨r, hr, hall⟩ := Option.map_eq_some_iff.mp hrun
  obtain ⟨hcreated, htruncated, hfound⟩ : r.created = calls ∧
      decide (keyFilePath dir name ∈ r.storage.truncated) = true ∧
      (findWallet dir name r.storage).1 = .ok none := by simpa using hall
  refine ⟨r, hr, hcreated, of_decide_eq_true htruncated, hfound, ?_⟩
  intro h
  have hmem : createMyWallet (ofString "first") ∈ r.created := by
    rw [hcreated]
    exact List.mem_cons_self ..
  obtain ⟨hwallet, -⟩ := h.last hr _ hmem
  cases hfound.symm.trans hwallet

end BuenzliCoin
