import BreadwalletCore.Key.PrivKey
import Mathlib.Data.List.Infix

/-!
# The key wrappers of the app

The extension of `BRKey` in `BRCore.swift`: private keys as strings, with and
without a passphrase, and signatures.  Each function asks for a size, lets a C
function fill a buffer, and makes a string or an array of the buffer.

A Swift string is given by its UTF-8 bytes; a C function sees what is in front of
the first NUL.
-/

namespace BreadwalletCore

/-- What the wrappers use: the environments of the key formats, `CFStringNormalize`
with form C, `BRKeySign` and `BRKeyVerify`.  A signature has 8 to 72 bytes, and is
accepted only at its exact length. -/
structure KeyWrapperEnv {P : Type} [AddCommGroup P] (curve : Secp256k1 P) where
  priv : PrivKeyEnv
  bip38 : Bip38Env
  nfc : List UInt8 → List UInt8
  sign : BRKey → UInt256 → List UInt8
  verify : BRKey → UInt256 → List UInt8 → Bool
  length_sign : ∀ key md, curve.seckeyVerify key.secret = true →
    8 ≤ (sign key md).length ∧ (sign key md).length ≤ 72
  verify_exact : ∀ key md pad, curve.seckeyVerify key.secret = true → pad ≠ [] →
    verify key md (sign key md ++ pad) = false

namespace KeyWrapper

variable {P : Type} [AddCommGroup P] {curve : Secp256k1 P} (env : KeyWrapperEnv curve)

/-! ## The wrappers -/

/-- What a C function reads of a string. -/
def cString (s : List UInt8) : List UInt8 :=
  s.takeWhile (· ≠ 0)

/-- The length of the string of 43 bytes with its NUL, as `BRKeyBIP38Key` gives it
for a `NULL` buffer. -/
def bip38KeySize : ℕ := 43 * 138 / 100 + 2

/-- `init?(privKey:)`. -/
def initPrivKey (s : List UInt8) : Option BRKey :=
  let r := PrivKey.BRKeySetPrivKey curve env.priv {} (cString s)
  if r.2 then some r.1 else none

/-- `init?(bip38Key:passphrase:)`. -/
def initBip38Key (s passphrase : List UInt8) : Option BRKey :=
  let r := Bip38.BRKeySetBIP38Key curve env.bip38 {} (cString s) (cString (env.nfc passphrase))
  if r.2 then some r.1 else none

/-- A buffer of `count` zeros that `BRKeyPrivKey` has filled, if it has written
anything. -/
def filled (key : BRKey) (count : ℕ) : Option (List UInt8) :=
  let r := writeOut (PrivKey.BRKeyPrivKey curve env.priv key) (some (List.replicate count 0))
  if r.2 ≠ 0 then r.1 else none

/-- `privKey`. -/
def privKey (key : BRKey) : Option (List UInt8) :=
  let count := (writeOut (PrivKey.BRKeyPrivKey curve env.priv key) none).2
  filled env key count

/-- `bip38Key`, which asks `BRKeyBIP38Key` for the size and lets `BRKeyPrivKey`
fill the buffer. -/
def bip38Key (key : BRKey) (_passphrase : List UInt8) : Option (List UInt8) :=
  let count := bip38KeySize
  filled env key count

/-- `removeSubrange` of everything from a position on. -/
def removeFrom (start : ℕ) (l : List UInt8) : List UInt8 :=
  l.take start

/-- `sign`. -/
def sign (key : BRKey) (md : UInt256) : Option (List UInt8) :=
  let r := writeOut (env.sign key md) (some (List.replicate 73 0))
  let sig := r.1.getD []
  let count := r.2
  if count > 0 then
    -- the range starts at the end of the array
    some (if count < sig.length then removeFrom sig.length sig else sig)
  else none

/-- `verify`. -/
def verify (key : BRKey) (md : UInt256) (sig : List UInt8) : Bool :=
  env.verify key md sig

/-! ## What the wrappers are for -/

/-- The secret and the format of a key. -/
def SameKey (key : BRKey) (k : BRKey) : Prop :=
  k.secret = key.secret ∧ k.compressed = key.compressed

def RestoresPrivKey (key : BRKey) : Prop :=
  ∃ s ∈ privKey env key, ∃ k ∈ initPrivKey env s, SameKey key k

def RestoresBip38Key (key : BRKey) (passphrase : List UInt8) : Prop :=
  ∃ s ∈ bip38Key env key passphrase, ∃ k ∈ initBip38Key env s passphrase, SameKey key k

/-- The characters of the private key are not a part of what is written with a
passphrase. -/
def HidesPrivKey (key : BRKey) (passphrase : List UInt8) : Prop :=
  ∀ s ∈ bip38Key env key passphrase, ∀ w ∈ privKey env key, ¬ cString w <:+: s

def VerifiesSigned (key : BRKey) (md : UInt256) : Prop :=
  ∃ sig ∈ sign env key md, verify env key md sig = true

/-- The laws of the wrappers, for a key, a passphrase and a digest. -/
structure Laws (key : BRKey) (passphrase : List UInt8) (md : UInt256) : Prop where
  privKey : RestoresPrivKey env key
  bip38Key : RestoresBip38Key env key passphrase
  hidden : HidesPrivKey env key passphrase
  verify : VerifiesSigned env key md

/-! ## What is written -/

/-- The data of the import format. -/
def importData (key : BRKey) : List UInt8 :=
  PrivKey.version env.priv :: hashBytes key.secret ++ if key.compressed then [0x01] else []

/-- The characters of the import format. -/
def importChars (key : BRKey) : List UInt8 :=
  Base58.encoding (importData env key ++ Base58.checksum env.priv.sha256d (importData env key))

variable {env} {key : BRKey}

theorem length_importData
    (key : BRKey) :
    (importData env key).length = if key.compressed then 34 else 33 := by
  rw [importData, List.length_append, List.length_cons, length_hashBytes]
  cases key.compressed <;> rfl

theorem BRKeyPrivKey_eq
    (hkey : curve.seckeyVerify key.secret = true) :
    PrivKey.BRKeyPrivKey curve env.priv key = importChars env key ++ [0] := by
  rw [PrivKey.BRKeyPrivKey, if_pos hkey]
  exact Base58.BRBase58CheckEncode_eq _ _

theorem cString_importChars
    (key : BRKey) (rest : List UInt8) :
    cString (importChars env key ++ 0 :: rest) = importChars env key := by
  have hchars : ∀ c ∈ importChars env key, decide (c ≠ 0) = true := by
    intro c hc
    have hmem := Base58.encoding_mem _ c hc
    have hzero : (0 : UInt8) ∉ Base58.base58chars := by decide
    exact decide_eq_true (fun h => hzero (h ▸ hmem))
  rw [cString, List.takeWhile_append_of_pos hchars, List.takeWhile_cons_of_neg (by decide),
    List.append_nil]

/-- The size that `BRBase58Encode` makes room for, with the NUL. -/
theorem length_encode_le
    (data : List UInt8) :
    (Base58.BRBase58Encode data).length ≤ data.length * 138 / 100 + 2 := by
  have hz : (data.takeWhile (· = 0)).length ≤ data.length := (List.takeWhile_prefix _).length_le
  have hstrip : (Digits.strip (Digits.convert 256 58
      ((data.drop (data.takeWhile (· = 0)).length).map UInt8.toNat)
      ((data.length - (data.takeWhile (· = 0)).length) * 138 / 100 + 1))).length ≤
        (data.length - (data.takeWhile (· = 0)).length) * 138 / 100 + 1 := by
    refine (List.dropWhile_sublist _).length_le.trans ?_
    rw [(Digits.convert_spec (by omega) 256 _ _).1]
  rw [Base58.BRBase58Encode]
  simp only [List.length_append, List.length_replicate, List.length_map, List.length_singleton]
  omega

/-- The import format has room in the buffer for a key with a passphrase. -/
theorem length_BRKeyPrivKey_le
    (hkey : curve.seckeyVerify key.secret = true) :
    (PrivKey.BRKeyPrivKey curve env.priv key).length ≤ bip38KeySize := by
  have hlen : (importData env key ++
      Base58.checksum env.priv.sha256d (importData env key)).length ≤ 38 := by
    rw [List.length_append, Base58.length_checksum, length_importData]
    split <;> omega
  rw [PrivKey.BRKeyPrivKey, if_pos hkey]
  refine (length_encode_le (importData env key ++
    Base58.checksum env.priv.sha256d (importData env key))).trans ?_
  rw [bip38KeySize]
  omega

/-- A buffer with room for the import format gets it, and keeps its zeros
behind it. -/
theorem filled_eq
    {count : ℕ}
    (hkey : curve.seckeyVerify key.secret = true)
    (hroom : (PrivKey.BRKeyPrivKey curve env.priv key).length ≤ count) :
    ∃ rest, filled env key count = some (importChars env key ++ 0 :: rest) := by
  rw [BRKeyPrivKey_eq hkey] at hroom
  have hwrite : writeOut (importChars env key ++ [0]) (some (List.replicate count 0)) =
      (some (importChars env key ++ [0] ++
        (List.replicate count 0).drop (importChars env key ++ [0]).length),
        (importChars env key ++ [0]).length) := by
    rw [writeOut, if_pos (by rw [List.length_replicate]; exact hroom)]
  refine ⟨(List.replicate count 0).drop (importChars env key ++ [0]).length, ?_⟩
  rw [filled, BRKeyPrivKey_eq hkey, hwrite]
  simp

theorem privKey_eq
    (hkey : curve.seckeyVerify key.secret = true) :
    ∃ rest, privKey env key = some (importChars env key ++ 0 :: rest) := by
  have hsize : (writeOut (PrivKey.BRKeyPrivKey curve env.priv key) none).2 =
      (PrivKey.BRKeyPrivKey curve env.priv key).length := by
    rw [writeOut]
  rw [privKey, hsize]
  exact filled_eq hkey (le_refl _)

theorem bip38Key_eq
    (hkey : curve.seckeyVerify key.secret = true)
    (passphrase : List UInt8) :
    ∃ rest, bip38Key env key passphrase = some (importChars env key ++ 0 :: rest) := by
  rw [bip38Key]
  exact filled_eq hkey (length_BRKeyPrivKey_le hkey)

/-! ## The laws one by one -/

theorem restoresPrivKey
    (hkey : curve.seckeyVerify key.secret = true) :
    RestoresPrivKey env key := by
  obtain ⟨rest, hs⟩ := @privKey_eq _ _ _ env _ hkey
  obtain ⟨s, hwritten, hread⟩ := PrivKey.setPrivKey_privKey curve env.priv hkey {}
  have hchars : s = importChars env key := by
    rw [BRKeyPrivKey_eq hkey] at hwritten
    exact (List.append_cancel_right hwritten).symm
  rw [hchars] at hread
  refine ⟨_, hs, (BRKey.setSecret curve key.secret key.compressed).1, ?_, rfl, rfl⟩
  rw [initPrivKey, cString_importChars, hread]
  rfl

/-- The import format has not the 39 bytes of a key with a passphrase. -/
theorem length_importChars_decoded
    (sha256d : List UInt8 → UInt256) (key : BRKey) :
    (Base58.BRBase58CheckDecode sha256d (importChars env key)).length ≠ 39 := by
  intro hlen
  obtain ⟨data, hdata⟩ : ∃ data, Base58.BRBase58CheckDecode sha256d (importChars env key) =
    data := ⟨_, rfl⟩
  rw [hdata] at hlen
  have hne : data ≠ [] := by
    rintro rfl
    exact absurd hlen (by decide)
  have hdecode := (Base58.BRBase58CheckDecode_eq_iff hne).mp hdata
  have hown := Base58.decode_encoding (s := importChars env key)
    (Base58.alphabetPart_of_mem (Base58.encoding_mem _))
  have heq := congrArg List.length (hown.symm.trans hdecode)
  rw [List.length_append, List.length_append, Base58.length_checksum, Base58.length_checksum,
    length_importData, hlen] at heq
  split at heq <;> omega

theorem not_restoresBip38Key
    (hkey : curve.seckeyVerify key.secret = true)
    (passphrase : List UInt8) :
    ¬ RestoresBip38Key env key passphrase := by
  rintro ⟨s, hs, k, hk, -⟩
  obtain ⟨rest, hwritten⟩ := @bip38Key_eq _ _ _ env _ hkey passphrase
  obtain rfl : importChars env key ++ 0 :: rest = s := Option.some.inj (hwritten.symm.trans hs)
  have hfalse : (Bip38.BRKeySetBIP38Key curve env.bip38 {} (importChars env key)
      (cString (env.nfc passphrase))).2 = false := by
    rw [Bip38.BRKeySetBIP38Key, if_pos (length_importChars_decoded env.bip38.sha256d key)]
  rw [initBip38Key, cString_importChars, hfalse] at hk
  exact absurd hk (Option.not_mem_none _)

theorem not_hidesPrivKey
    (hkey : curve.seckeyVerify key.secret = true)
    (passphrase : List UInt8) :
    ¬ HidesPrivKey env key passphrase := by
  intro hhides
  obtain ⟨rest, hs⟩ := @bip38Key_eq _ _ _ env _ hkey passphrase
  obtain ⟨rest', hw⟩ := @privKey_eq _ _ _ env _ hkey
  refine hhides _ hs _ hw ?_
  rw [cString_importChars]
  exact (List.prefix_append _ _).isInfix

/-- The zeros behind a signature stay. -/
theorem sign_eq
    (hkey : curve.seckeyVerify key.secret = true)
    (md : UInt256) :
    sign env key md = some (env.sign key md ++
      List.replicate (73 - (env.sign key md).length) 0) := by
  obtain ⟨hlow, hhigh⟩ := env.length_sign key md hkey
  have hwrite : writeOut (env.sign key md) (some (List.replicate 73 0)) =
      (some (env.sign key md ++ List.replicate (73 - (env.sign key md).length) 0),
        (env.sign key md).length) := by
    rw [writeOut, if_pos (by rw [List.length_replicate]; omega), List.drop_replicate]
  rw [sign, hwrite]
  dsimp only [Option.getD_some]
  rw [if_pos (by omega), removeFrom, List.take_length, ite_self]

theorem not_verifiesSigned
    (hkey : curve.seckeyVerify key.secret = true)
    (md : UInt256) :
    ¬ VerifiesSigned env key md := by
  rintro ⟨sig, hsig, hverify⟩
  obtain ⟨-, hhigh⟩ := env.length_sign key md hkey
  rw [sign_eq hkey] at hsig
  obtain rfl := Option.some.inj hsig
  have hpad : List.replicate (73 - (env.sign key md).length) (0 : UInt8) ≠ [] := by
    rw [Ne, List.replicate_eq_nil_iff]
    omega
  rw [verify, env.verify_exact key md _ hkey hpad] at hverify
  exact absurd hverify Bool.false_ne_true

variable (env key)

/-- **The key wrappers.**  A private key is read back from its string.  A key with
a passphrase is the plain private key and is not read back, and no signature is
accepted. -/
theorem not_laws
    (hkey : curve.seckeyVerify key.secret = true)
    (passphrase : List UInt8) (md : UInt256) :
    ¬ Laws env key passphrase md ∧ RestoresPrivKey env key ∧
      ¬ RestoresBip38Key env key passphrase ∧ ¬ HidesPrivKey env key passphrase ∧
      ¬ VerifiesSigned env key md :=
  ⟨fun h => not_verifiesSigned hkey md h.verify, restoresPrivKey hkey,
    not_restoresBip38Key hkey passphrase, not_hidesPrivKey hkey passphrase,
    not_verifiesSigned hkey md⟩

/-- Signatures of eight zeros, and constants for the hashes. -/
def sampleEnv : KeyWrapperEnv Bip32.groupCurve where
  priv := PrivKey.digitsEnv
  bip38 := Bip38.zeroEnv
  nfc := id
  sign _ _ := List.replicate 8 0
  verify _ _ sig := sig = List.replicate 8 0
  length_sign _ _ _ := by decide
  verify_exact _ _ pad _ hpad := by
    refine decide_eq_false (fun h => hpad ?_)
    exact List.append_right_eq_self.mp h

theorem not_laws_five :
    ¬ Laws sampleEnv { secret := scalarBytes 5 } [0x78] 0 :=
  (not_laws sampleEnv { secret := scalarBytes 5 } (by decide +kernel) [0x78] 0).1

theorem not_key_laws :
    ¬ ∀ (key : BRKey) (passphrase : List UInt8) (md : UInt256),
      Bip32.groupCurve.seckeyVerify key.secret = true → Laws sampleEnv key passphrase md := by
  intro hall
  have hkey : Bip32.groupCurve.seckeyVerify (scalarBytes 5) = true := by decide +kernel
  have hlaws := hall { secret := scalarBytes 5 } [0x78] 0 hkey
  exact @not_restoresBip38Key _ _ _ sampleEnv { secret := scalarBytes 5 } hkey [0x78]
    hlaws.bip38Key

end KeyWrapper

end BreadwalletCore
