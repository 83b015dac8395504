import BreadwalletCore.Key.Bip38

/-!
# Private keys as text

`BRPrivKeyIsValid`, `BRKeySetPrivKey` and `BRKeyPrivKey`.  A string is tried as a
mini private key, as Base58 with a checksum, as Base58 without one, and as
hexadecimal digits.  The digits but for zero are characters of Base58 as well, and
the decoder stops at the first character outside the alphabet without saying so.
-/

namespace BreadwalletCore

open Segment (slice)
open Bip38 (readSecret)

namespace PrivKey

/-- A character of `"0123456789ABCDEFabcdef"`. -/
def isHex (c : UInt8) : Bool :=
  (0x30 ≤ c && c ≤ 0x39) || (0x41 ≤ c && c ≤ 0x46) || (0x61 ≤ c && c ≤ 0x66)

/-- What a hexadecimal digit stands for. -/
def hexValue (c : UInt8) : ℕ :=
  if c ≤ 0x39 then c.toNat - 0x30
  else if c ≤ 0x46 then c.toNat - 0x41 + 10
  else c.toNat - 0x61 + 10

end PrivKey

open PrivKey in
/-- What the functions use: the hashes, and `sscanf` with the format `"%2hhx"`,
which reads two digits as a byte. -/
structure PrivKeyEnv where
  sha256 : List UInt8 → UInt256
  sha256d : List UInt8 → UInt256
  testnet : Bool
  sscanf : List UInt8 → Option UInt8
  sscanf_digits : ∀ a b rest, isHex a = true → isHex b = true →
    sscanf (a :: b :: rest) = some (UInt8.ofNat (16 * hexValue a + hexValue b))

namespace PrivKey

variable {P : Type} [AddCommGroup P] (curve : Secp256k1 P) (env : PrivKeyEnv)

/-- `BITCOIN_PRIVKEY`, or that of the test network. -/
def version : UInt8 :=
  if env.testnet then 239 else 128

/-- What is copied to `data[34]`. -/
def capped (l : List UInt8) : List UInt8 :=
  if l.length ≤ 34 then l else []

/-- `BRBase58CheckDecode(data, sizeof(data), privKey)`. -/
def checkDecoded (privKey : List UInt8) : List UInt8 :=
  capped (Base58.BRBase58CheckDecode env.sha256d privKey)

/-- `BRBase58Decode(data, sizeof(data), privKey)`. -/
def rawDecoded (privKey : List UInt8) : List UInt8 :=
  capped (Base58.BRBase58Decode privKey)

/-- The length and the first character of the mini private key format. -/
def isMini (privKey : List UInt8) : Bool :=
  (privKey.length = 30 || privKey.length = 22) && privKey.headD 0 = 0x53

/-- `strspn(privKey, "0123456789ABCDEFabcdef")`. -/
def hexSpan (privKey : List UInt8) : ℕ :=
  (privKey.takeWhile isHex).length

/-- `BRPrivKeyIsValid`. -/
def BRPrivKeyIsValid (privKey : List UInt8) : Bool :=
  let data := checkDecoded env privKey
  if data.length = 33 ∨ data.length = 34 then data.getD 0 0 = version env
  else if isMini privKey then (hashBytes (env.sha256 (privKey ++ [0x3f]))).getD 0 0 = 0
  else hexSpan privKey = 64

/-- What is read as Base58, with a checksum or without. -/
def base58Read (privKey : List UInt8) : List UInt8 :=
  let data := checkDecoded env privKey
  if data.length = 0 ∨ data.length = 28 then rawDecoded privKey else data

/-- The loop that treats `privKey` as hex string, with room for `n` bytes. -/
def hexLoop : ℕ → List UInt8 → List UInt8
  | n + 1, a :: b :: rest =>
      match env.sscanf (a :: b :: rest) with
      | none => []
      | some byte => byte :: hexLoop n rest
  | _, _ => []

/-- The secret in the bytes read, and whether its public key is compressed. -/
def layout (data : List UInt8) : Option (UInt256 × Bool) :=
  if (data.length = 33 ∨ data.length = 34) ∧ data.getD 0 0 = version env then
    some (readSecret (slice data 1 32), data.length = 34)
  else if data.length = 32 then some (readSecret data, false)
  else none

/-- The bytes that `BRKeySetPrivKey` reads from a string that is no mini key. -/
def dataRead (privKey : List UInt8) : List UInt8 :=
  let data := base58Read env privKey
  if data.length < 32 ∨ data.length > 34 then hexLoop env 34 privKey else data

/-- `BRKeySetPrivKey`: the key afterwards, and the value returned. -/
def BRKeySetPrivKey (key : BRKey) (privKey : List UInt8) : BRKey × Bool :=
  if isMini privKey then
    if ¬BRPrivKeyIsValid env privKey then (key, false)
    else BRKey.setSecret curve (env.sha256 privKey) false
  else
    match layout env (dataRead env privKey) with
    | some (secret, compressed) => BRKey.setSecret curve secret compressed
    | none => (key, false)

/-- `BRKeyPrivKey`: the string with its NUL, or nothing. -/
def BRKeyPrivKey (key : BRKey) : List UInt8 :=
  if curve.seckeyVerify key.secret then
    Base58.BRBase58CheckEncode env.sha256d
      (version env :: hashBytes key.secret ++ if key.compressed then [0x01] else [])
  else []

/-! ## The format for import -/

theorem length_capped_le
    (l : List UInt8) :
    (capped l).length ≤ 34 := by
  rw [capped]
  split
  · assumption
  · exact Nat.zero_le _

theorem dataRead_eq
    {privKey : List UInt8}
    (h : 32 ≤ (base58Read env privKey).length) :
    dataRead env privKey = base58Read env privKey := by
  have hle : (base58Read env privKey).length ≤ 34 := by
    rw [base58Read]
    split <;> exact length_capped_le _
  rw [dataRead]
  exact if_neg (by omega)

theorem dataRead_hex
    {privKey : List UInt8}
    (h : (base58Read env privKey).length < 32) :
    dataRead env privKey = hexLoop env 34 privKey :=
  if_pos (.inl h)

theorem base58Read_eq
    (privKey : List UInt8)
    (h0 : (checkDecoded env privKey).length ≠ 0)
    (h28 : (checkDecoded env privKey).length ≠ 28) :
    base58Read env privKey = checkDecoded env privKey :=
  if_neg (by rintro (h | h); exacts [h0 h, h28 h])

/-- A key that is written is read back. -/
theorem setPrivKey_privKey
    {key : BRKey}
    (hkey : curve.seckeyVerify key.secret = true)
    (key' : BRKey) :
    ∃ privKey, BRKeyPrivKey curve env key = privKey ++ [0] ∧
      BRKeySetPrivKey curve env key' privKey =
        ((BRKey.setSecret curve key.secret key.compressed).1, true) := by
  obtain ⟨data, hdata⟩ : ∃ data, version env :: hashBytes key.secret ++
      (if key.compressed then [0x01] else []) = data := ⟨_, rfl⟩
  have hlen : data.length = if key.compressed then 34 else 33 := by
    rw [← hdata, List.length_append, List.length_cons, length_hashBytes]
    cases key.compressed <;> rfl
  have hne : data ≠ [] := by
    rw [← hdata]
    exact List.cons_ne_nil _ _
  have hwrite : BRKeyPrivKey curve env key =
      Base58.encoding (data ++ Base58.checksum env.sha256d data) ++ [0] := by
    rw [BRKeyPrivKey, if_pos hkey, hdata, Base58.BRBase58CheckEncode_eq]
  refine ⟨_, hwrite, ?_⟩
  obtain ⟨s, hs⟩ : ∃ s, Base58.encoding (data ++ Base58.checksum env.sha256d data) = s := ⟨_, rfl⟩
  have hpart : Base58.alphabetPart s =
      Base58.encoding (data ++ Base58.checksum env.sha256d data) := by
    rw [← hs, Base58.alphabetPart_of_mem (Base58.encoding_mem _)]
  have hlong : 37 ≤ s.length := by
    have hle := Base58.length_decode_le s
    rw [Base58.decode_encoding hpart, List.length_append, Base58.length_checksum, hlen] at hle
    split at hle <;> omega
  have hcheck : checkDecoded env s = data := by
    rw [checkDecoded, (Base58.BRBase58CheckDecode_eq_iff_encoding hne).mpr hpart, capped,
      if_pos (by rw [hlen]; split <;> omega)]
  have hread : dataRead env s = data := by
    have hbase : base58Read env s = data := by
      rw [base58Read_eq env _ (by rw [hcheck, hlen]; split <;> omega)
        (by rw [hcheck, hlen]; split <;> omega), hcheck]
    rw [dataRead_eq env (by rw [hbase, hlen]; split <;> omega), hbase]
  have hmini : isMini s = false := by
    rw [isMini, Bool.and_eq_false_iff]
    left
    rw [Bool.or_eq_false_iff]
    exact ⟨decide_eq_false (by omega), decide_eq_false (by omega)⟩
  have hlayout : layout env data = some (key.secret, key.compressed) := by
    have hfirst : data.getD 0 0 = version env := by
      rw [← hdata, List.cons_append, List.getD_cons_zero]
    have hsecret : slice data 1 32 = hashBytes key.secret := by
      rw [← hdata, slice, List.cons_append, List.drop_one, List.tail_cons,
        List.take_left' (length_hashBytes key.secret)]
    rw [layout, if_pos ⟨by rw [hlen]; split <;> omega, hfirst⟩, hsecret, readSecret,
      RawMerkleBlock.ofNat_value_hashBytes, hlen]
    cases key.compressed <;> rfl
  rw [hs, BRKeySetPrivKey, hmini, if_neg Bool.false_ne_true, hread, hlayout]
  dsimp only
  rw [BRKey.setSecret, hkey]

/-! ## Hexadecimal digits -/

/-- The bytes for some hexadecimal digits. -/
def hexBytes : List UInt8 → List UInt8
  | [] => []
  | [_] => []
  | a :: b :: rest => UInt8.ofNat (16 * hexValue a + hexValue b) :: hexBytes rest

theorem length_hexBytes
    (s : List UInt8) :
    (hexBytes s).length = s.length / 2 := by
  induction s using hexBytes.induct with
  | case1 =>
      rfl
  | case2 =>
      simp [hexBytes]
  | case3 a b rest ih =>
      rw [hexBytes, List.length_cons, ih, List.length_cons, List.length_cons]
      omega

/-- The loop reads pairs of digits. -/
theorem hexLoop_eq
    {s : List UInt8} {n : ℕ}
    (hs : ∀ c ∈ s, isHex c = true)
    (hn : s.length / 2 ≤ n) :
    hexLoop env n s = hexBytes s := by
  induction s using hexBytes.induct generalizing n with
  | case1 => cases n <;> rfl
  | case2 => cases n <;> rfl
  | case3 a b rest ih =>
      rw [List.length_cons, List.length_cons] at hn
      obtain ⟨m, rfl⟩ : ∃ m, n = m + 1 := ⟨n - 1, by omega⟩
      rw [hexLoop, env.sscanf_digits a b rest (hs a (by simp)) (hs b (by simp)), hexBytes]
      exact congrArg _ (ih (fun c hc => hs c (by simp [hc])) (by omega))

/-- A string of 64 hexadecimal digits. -/
def IsHex64 (s : List UInt8) : Prop :=
  s.length = 64 ∧ ∀ c ∈ s, isHex c = true

theorem hexSpan_of_isHex64
    {s : List UInt8}
    (hs : IsHex64 s) :
    hexSpan s = 64 := by
  rw [hexSpan, List.takeWhile_eq_self_iff.mpr hs.2, hs.1]

theorem not_isMini_of_isHex64
    {s : List UInt8}
    (hs : IsHex64 s) :
    isMini s = false := by
  rw [isMini, hs.1]
  rfl

theorem setSecret_fst
    (secret : UInt256) (compressed : Bool) :
    (BRKey.setSecret curve secret compressed).1.secret = secret := by
  rfl

theorem setSecret_snd
    (secret : UInt256) (compressed : Bool) :
    (BRKey.setSecret curve secret compressed).2 = curve.seckeyVerify secret := by
  rw [BRKey.setSecret]

/-- A string is valid, and the secret that it encodes is set. -/
def SetsHex (key : BRKey) (s : List UInt8) : Prop :=
  BRPrivKeyIsValid env s = true ∧ (BRKeySetPrivKey curve env key s).2 = true ∧
    (BRKeySetPrivKey curve env key s).1.secret = readSecret (hexBytes s)

theorem setPrivKey_eq
    {s : List UInt8} (key : BRKey)
    (hmini : isMini s = false) :
    BRKeySetPrivKey curve env key s =
      match layout env (dataRead env s) with
      | some (secret, compressed) => BRKey.setSecret curve secret compressed
      | none => (key, false) := by
  rw [BRKeySetPrivKey, hmini, if_neg Bool.false_ne_true]

theorem layout_thirty_two
    {data : List UInt8}
    (h : data.length = 32) :
    layout env data = some (readSecret data, false) := by
  rw [layout, if_neg (by omega), if_pos h]

/-- A layout with a version has it. -/
theorem version_of_layout
    {data : List UInt8} {r : UInt256 × Bool}
    (h : layout env data = some r)
    (hlen : data.length = 33 ∨ data.length = 34) :
    data.getD 0 0 = version env := by
  by_contra hver
  rw [layout, if_neg (fun h => hver h.2), if_neg (by omega)] at h
  exact absurd h (by simp)

/-- Digits are valid, whatever Base58 reads of them. -/
theorem isValid_of_hexSpan
    {s : List UInt8}
    (hmini : isMini s = false)
    (hspan : hexSpan s = 64)
    (hread : (base58Read env s).length < 32 ∨ ∃ r, layout env (base58Read env s) = some r) :
    BRPrivKeyIsValid env s = true := by
  rw [BRPrivKeyIsValid]
  by_cases hcheck : (checkDecoded env s).length = 33 ∨ (checkDecoded env s).length = 34
  · rw [base58Read_eq env _ (by omega) (by omega)] at hread
    rw [if_pos hcheck]
    rcases hread with hshort | ⟨r, hlayout⟩
    · omega
    · exact decide_eq_true (version_of_layout env hlayout hcheck)
  · rw [if_neg hcheck, hmini, if_neg Bool.false_ne_true]
    exact decide_eq_true hspan

/-- Digits are read as such if they are not read as Base58 before, or if that
gives the same secret. -/
theorem setsHex_iff
    {s : List UInt8} (key : BRKey)
    (hs : IsHex64 s)
    (hsecret : curve.seckeyVerify (readSecret (hexBytes s)) = true) :
    SetsHex curve env key s ↔
      (base58Read env s).length < 32 ∨
        ∃ compressed, layout env (base58Read env s) = some (readSecret (hexBytes s), compressed) := by
  have hmini := not_isMini_of_isHex64 hs
  have hspan := hexSpan_of_isHex64 hs
  by_cases hshort : (base58Read env s).length < 32
  · refine iff_of_true ?_ (.inl hshort)
    have hloop : hexLoop env 34 s = hexBytes s := hexLoop_eq env hs.2 (by rw [hs.1]; omega)
    have hlen : (hexBytes s).length = 32 := by rw [length_hexBytes, hs.1]
    have hset : BRKeySetPrivKey curve env key s =
        BRKey.setSecret curve (readSecret (hexBytes s)) false := by
      rw [setPrivKey_eq curve env key hmini, dataRead_hex env hshort, hloop,
        layout_thirty_two env hlen]
    refine ⟨isValid_of_hexSpan env hmini hspan (.inl hshort), ?_, ?_⟩
    · rw [hset, setSecret_snd, hsecret]
    · rw [hset, setSecret_fst]
  · have hread := dataRead_eq env (not_lt.mp hshort)
    have hset := setPrivKey_eq curve env key hmini
    rw [hread] at hset
    rw [SetsHex, hset]
    cases hlayout : layout env (base58Read env s) with
    | none =>
        refine iff_of_false (fun h => Bool.false_ne_true h.2.1) ?_
        rintro (h | ⟨_, h⟩)
        · exact hshort h
        · exact absurd h (by simp)
    | some r =>
        obtain ⟨secret, compressed⟩ := r
        constructor
        · rintro ⟨-, -, h⟩
          rw [setSecret_fst] at h
          exact .inr ⟨compressed, by rw [h]⟩
        · rintro (h | ⟨c, h⟩)
          · exact absurd h hshort
          · obtain ⟨rfl, rfl⟩ := Prod.mk.inj (Option.some.inj h)
            exact ⟨isValid_of_hexSpan env hmini hspan (.inr ⟨_, hlayout⟩),
              by rw [setSecret_snd, hsecret], by rw [setSecret_fst]⟩

/-! ## What else is read -/

/-- Base58 of 32 to 34 bytes, without a checksum and with nothing behind it. -/
def IsRaw (s : List UInt8) : Prop :=
  (∀ c ∈ s, c ∈ Base58.base58chars) ∧ 32 ≤ (Base58.BRBase58Decode s).length ∧
    (Base58.BRBase58Decode s).length ≤ 34

/-- Bytes with a valid secret in them. -/
def HasSecret (data : List UInt8) : Prop :=
  ∃ secret compressed, layout env data = some (secret, compressed) ∧
    curve.seckeyVerify secret = true

/-- The strings in no format that are read all the same: a secret of 32 bytes
with a checksum; 32 to 34 bytes of Base58 in front of another character; digits,
or what `sscanf` reads as such, that are not 64 in a row. -/
def Unlisted (s : List UInt8) : Prop :=
  isMini s = false ∧ hexSpan s ≠ 64 ∧
    (((checkDecoded env s).length = 32 ∧ HasSecret curve env (checkDecoded env s)) ∨
      (((checkDecoded env s).length = 0 ∨ (checkDecoded env s).length = 28) ∧
        32 ≤ (rawDecoded s).length ∧ (∃ c ∈ s, c ∉ Base58.base58chars) ∧
        HasSecret curve env (rawDecoded s)) ∨
      ((base58Read env s).length < 32 ∧ ¬IsRaw s ∧ HasSecret curve env (hexLoop env 34 s)))

theorem setPrivKey_snd_iff
    {s : List UInt8} (key : BRKey)
    (hmini : isMini s = false) :
    (BRKeySetPrivKey curve env key s).2 = true ↔ HasSecret curve env (dataRead env s) := by
  rw [setPrivKey_eq curve env key hmini]
  cases hlayout : layout env (dataRead env s) with
  | none =>
      refine iff_of_false Bool.false_ne_true ?_
      rintro ⟨_, _, h, -⟩
      rw [hlayout] at h
      exact absurd h (by simp)
  | some r =>
      dsimp only
      rw [setSecret_snd]
      constructor
      · intro h
        exact ⟨r.1, r.2, hlayout, h⟩
      · rintro ⟨_, _, h, hvalid⟩
        rw [hlayout] at h
        cases h
        exact hvalid

theorem isValid_eq
    {s : List UInt8}
    (hmini : isMini s = false)
    (hspan : hexSpan s ≠ 64) :
    BRPrivKeyIsValid env s = true ↔
      ((checkDecoded env s).length = 33 ∨ (checkDecoded env s).length = 34) ∧
        (checkDecoded env s).getD 0 0 = version env := by
  rw [BRPrivKeyIsValid]
  by_cases hcheck : (checkDecoded env s).length = 33 ∨ (checkDecoded env s).length = 34
  · rw [if_pos hcheck, decide_eq_true_iff, and_iff_right hcheck]
  · rw [if_neg hcheck, hmini, if_neg Bool.false_ne_true, decide_eq_true_iff]
    exact iff_of_false hspan (fun h => hcheck h.1)

/-- Bytes with a checksum are four more without it. -/
theorem length_decode_of_check
    {s : List UInt8}
    (h : (checkDecoded env s).length = 32) :
    (Base58.BRBase58Decode s).length = 36 := by
  have hne : checkDecoded env s ≠ [] := by
    intro hnil
    rw [hnil] at h
    exact absurd h (by decide)
  have hcheck : Base58.BRBase58CheckDecode env.sha256d s = checkDecoded env s := by
    rw [checkDecoded, capped] at hne ⊢
    by_cases hle : (Base58.BRBase58CheckDecode env.sha256d s).length ≤ 34
    · rw [if_pos hle]
    · rw [if_neg hle] at hne
      exact absurd rfl hne
  rw [(Base58.BRBase58CheckDecode_eq_iff hne).mp hcheck, List.length_append, h,
    Base58.length_checksum]

theorem isRaw_iff
    {s : List UInt8}
    (h : 32 ≤ (rawDecoded s).length) :
    IsRaw s ↔ ¬∃ c ∈ s, c ∉ Base58.base58chars := by
  have hraw : rawDecoded s = Base58.BRBase58Decode s := by
    rw [rawDecoded, capped] at h ⊢
    by_cases hle : (Base58.BRBase58Decode s).length ≤ 34
    · rw [if_pos hle]
    · rw [if_neg hle, List.length_nil] at h
      omega
  have hle := length_capped_le (Base58.BRBase58Decode s)
  rw [← rawDecoded] at hle
  rw [IsRaw, ← hraw]
  constructor
  · rintro ⟨hall, -⟩ ⟨c, hc, hnot⟩
    exact hnot (hall c hc)
  · intro hall
    refine ⟨fun c hc => ?_, h, hle⟩
    by_contra hnot
    exact hall ⟨c, hc, hnot⟩

/-- A mini key is set only if it is valid. -/
theorem isValid_of_isMini
    {s : List UInt8} (key : BRKey)
    (hmini : isMini s = true)
    (hset : (BRKeySetPrivKey curve env key s).2 = true) :
    BRPrivKeyIsValid env s = true := by
  by_contra hvalid
  rw [BRKeySetPrivKey, if_pos hmini, if_pos hvalid] at hset
  exact Bool.false_ne_true hset

theorem not_isRaw_of_check
    {s : List UInt8}
    (h : (checkDecoded env s).length = 32) :
    ¬IsRaw s := by
  intro hraw
  have hlen := length_decode_of_check env h
  have hle := hraw.2.2
  omega

/-- A string is read only in the formats listed, but for those that are not. -/
theorem setPrivKey_listed_iff
    (key : BRKey) (s : List UInt8) :
    ((BRKeySetPrivKey curve env key s).2 = true → BRPrivKeyIsValid env s = true ∨ IsRaw s) ↔
      ¬Unlisted curve env s := by
  by_cases hmini : isMini s = true
  · refine iff_of_true (fun hset => .inl (isValid_of_isMini curve env key hmini hset))
      (fun h => ?_)
    rw [Unlisted, hmini] at h
    exact Bool.noConfusion h.1
  rw [Bool.not_eq_true] at hmini
  rw [setPrivKey_snd_iff curve env key hmini]
  have hle : (checkDecoded env s).length ≤ 34 := length_capped_le _
  by_cases hspan : hexSpan s = 64
  · refine iff_of_true (fun hset => .inl (isValid_of_hexSpan env hmini hspan ?_))
      (fun h => h.2.1 hspan)
    by_cases hshort : (base58Read env s).length < 32
    · exact .inl hshort
    · rw [dataRead_eq env (not_lt.mp hshort)] at hset
      obtain ⟨secret, compressed, hlayout, -⟩ := hset
      exact .inr ⟨_, hlayout⟩
  rw [isValid_eq env hmini hspan, Unlisted, and_iff_right hmini, and_iff_right hspan]
  by_cases hcheck : (checkDecoded env s).length = 33 ∨ (checkDecoded env s).length = 34
  · have hread := base58Read_eq env s (by omega) (by omega)
    rw [dataRead_eq env (by rw [hread]; omega), hread]
    refine iff_of_true ?_ ?_
    · rintro ⟨_, _, hlayout, -⟩
      exact .inl ⟨hcheck, version_of_layout env hlayout hcheck⟩
    · rintro (h | h | h) <;> omega
  have hwif : ∀ p : Prop, (((checkDecoded env s).length = 33 ∨
      (checkDecoded env s).length = 34) ∧ p ∨ IsRaw s) ↔ IsRaw s :=
    fun p => or_iff_right (fun h => hcheck h.1)
  rw [hwif]
  by_cases h32 : (checkDecoded env s).length = 32
  · have hread := base58Read_eq env s (by omega) (by omega)
    have hnot : ¬IsRaw s := not_isRaw_of_check env h32
    rw [dataRead_eq env (by rw [hread]; omega), hread]
    constructor
    · rintro h (⟨-, hsecret⟩ | ⟨hlen, -⟩ | ⟨hshort, -⟩)
      · exact hnot (h hsecret)
      · omega
      · omega
    · intro h hsecret
      exact absurd (.inl ⟨h32, hsecret⟩) h
  have hraw : ((checkDecoded env s).length = 0 ∨ (checkDecoded env s).length = 28) →
      base58Read env s = rawDecoded s := fun h => if_pos h
  by_cases hshort : (base58Read env s).length < 32
  · rw [dataRead_hex env hshort]
    constructor
    · rintro h (⟨h', -⟩ | ⟨hlen, hlong, -⟩ | ⟨-, hnot, hsecret⟩)
      · exact h32 h'
      · rw [hraw hlen] at hshort
        omega
      · exact hnot (h hsecret)
    · intro h hsecret
      by_contra hnot
      exact h (.inr (.inr ⟨hshort, hnot, hsecret⟩))
  · have hzero : (checkDecoded env s).length = 0 ∨ (checkDecoded env s).length = 28 := by
      by_contra hnone
      rw [base58Read_eq env _ (by omega) (by omega)] at hshort
      omega
    rw [dataRead_eq env (not_lt.mp hshort)]
    rw [hraw hzero, not_lt] at hshort
    rw [hraw hzero, isRaw_iff hshort]
    constructor
    · rintro h (⟨h', -⟩ | ⟨-, -, hother, hsecret⟩ | ⟨hshort', -⟩)
      · exact h32 h'
      · exact h hsecret hother
      · omega
    · intro h hsecret hother
      exact h (.inr (.inl ⟨hzero, hshort, hother, hsecret⟩))

/-- Private keys there and back, the digits of a secret, and the strings that
are read, exactly. -/
theorem privKey_spec
    (key key' : BRKey) (s : List UInt8) :
    (curve.seckeyVerify key.secret = true →
      ∃ privKey, BRKeyPrivKey curve env key = privKey ++ [0] ∧
        BRKeySetPrivKey curve env key' privKey =
          ((BRKey.setSecret curve key.secret key.compressed).1, true)) ∧
      (IsHex64 s → curve.seckeyVerify (readSecret (hexBytes s)) = true →
        (SetsHex curve env key' s ↔
          (base58Read env s).length < 32 ∨ ∃ compressed,
            layout env (base58Read env s) = some (readSecret (hexBytes s), compressed))) ∧
      (((BRKeySetPrivKey curve env key' s).2 = true →
        BRPrivKeyIsValid env s = true ∨ IsRaw s) ↔ ¬Unlisted curve env s) :=
  ⟨fun hkey => setPrivKey_privKey curve env hkey key',
    fun hs hsecret => setsHex_iff curve env key' hs hsecret,
    setPrivKey_listed_iff curve env key' s⟩

/-- `sscanf` with two digits or one; blanks in front of them, a sign and `0x` are
left out. -/
def digitsEnv : PrivKeyEnv where
  sha256 _ := 0
  sha256d _ := 1
  testnet := false
  sscanf
    | a :: b :: _ =>
        if isHex a then
          if isHex b then some (UInt8.ofNat (16 * hexValue a + hexValue b))
          else some (UInt8.ofNat (hexValue a))
        else none
    | _ => none
  sscanf_digits a b rest ha hb := by
    simp only [ha, hb, if_true]

theorem privKey_spec_five :
    ∃ privKey, BRKeyPrivKey Bip32.groupCurve digitsEnv { secret := scalarBytes 5 } =
        privKey ++ [0] ∧
      BRKeySetPrivKey Bip32.groupCurve digitsEnv {} privKey =
        ((BRKey.setSecret Bip32.groupCurve (scalarBytes 5) false).1, true) :=
  (privKey_spec Bip32.groupCurve digitsEnv { secret := scalarBytes 5 } {} []).1
    (by decide +kernel)

/-- 32 digits one and 32 zeros are read as 32 zero bytes in Base58, and 66 digits
of which the first two are 80 are read though no format has 66. -/
theorem not_privKey_formats :
    (IsHex64 (List.replicate 32 0x31 ++ List.replicate 32 0x30) ∧
      Bip32.groupCurve.seckeyVerify (readSecret (hexBytes
        (List.replicate 32 0x31 ++ List.replicate 32 0x30))) = true ∧
      ¬SetsHex Bip32.groupCurve digitsEnv {}
        (List.replicate 32 0x31 ++ List.replicate 32 0x30)) ∧
      (BRKeySetPrivKey Bip32.groupCurve digitsEnv {}
        (0x38 :: 0x30 :: (List.replicate 63 0x30 ++ [0x35]))).2 = true ∧
      BRPrivKeyIsValid digitsEnv (0x38 :: 0x30 :: (List.replicate 63 0x30 ++ [0x35])) = false ∧
      ¬IsRaw (0x38 :: 0x30 :: (List.replicate 63 0x30 ++ [0x35])) := by
  refine ⟨⟨⟨by decide, by decide +kernel⟩, by decide +kernel, ?_⟩, by decide +kernel,
    by decide +kernel, ?_⟩
  · intro h
    have hset : (BRKeySetPrivKey Bip32.groupCurve digitsEnv {}
        (List.replicate 32 0x31 ++ List.replicate 32 0x30)).2 = false := by
      decide +kernel
    rw [h.2.1] at hset
    exact Bool.noConfusion hset
  · intro h
    exact absurd (h.1 0x30 (by decide +kernel)) (by decide)

end PrivKey

end BreadwalletCore
