import BreadwalletCore.Crypto.Poly1305

/-!
# Authenticated encryption

`BRChacha20` has a counter of 64 bits and a stream of 64 bits; the cipher with a
counter of 32 bits and a nonce of 96 bits is the case in which the first word of
the nonce is the high word of the counter.  It stays there as long as the low
word does not wrap around.
-/

namespace BreadwalletCore

open StreamCipher (xorStream getElem?_xorStream)

/-! ## The key stream -/

/-- The words behind a number of blocks. -/
def ChachaWords.after (s : ChachaWords) (n : ℕ) : ChachaWords :=
  ChachaWords.advance^[n] s

theorem ChachaWords.after_succ
    (s : ChachaWords) (n : ℕ) :
    s.after (n + 1) = (s.after n).advance := by
  rw [ChachaWords.after, Function.iterate_succ_apply']
  rfl

theorem length_chachaBlock
    (s : ChachaWords) :
    (chachaBlock s).length = 64 := by
  rw [chachaBlock]
  simp

/-- The loop at index `i`: as many blocks as have begun. -/
theorem chachaLoop_iterate
    (s : ChachaWords) (i : ℕ) :
    (fun c => (ChachaLoop.next c).2)^[i] { s := s } =
      { s := s.after ((i + 63) / 64)
        b := if i = 0 then [] else chachaBlock (s.after ((i - 1) / 64))
        i := i } := by
  induction i with
  | zero =>
      rfl
  | succ i ih =>
      rw [Function.iterate_succ_apply', ih, ChachaLoop.next]
      dsimp only
      by_cases hblock : i % 64 = 0
      · rw [if_pos hblock, if_neg (by omega), show (i + 1 + 63) / 64 = (i + 63) / 64 + 1 by omega,
          show (i + 1 - 1) / 64 = (i + 63) / 64 by omega, ChachaWords.after_succ]
      · rw [if_neg hblock, if_neg (by omega), if_neg (by omega),
          show (i + 1 + 63) / 64 = (i + 63) / 64 by omega,
          show (i + 1 - 1) / 64 = (i - 1) / 64 by omega]

/-- A byte of the key stream. -/
theorem chachaLoop_next
    (s : ChachaWords) (i : ℕ) :
    (ChachaLoop.next ((fun c => (ChachaLoop.next c).2)^[i] { s := s })).1 =
      (chachaBlock (s.after (i / 64))).getD (i % 64) 0 := by
  rw [chachaLoop_iterate, ChachaLoop.next]
  dsimp only
  by_cases hblock : i % 64 = 0
  · rw [if_pos hblock, hblock, show (i + 63) / 64 = i / 64 by omega]
  · rw [if_neg hblock, if_neg (by omega), show (i - 1) / 64 = i / 64 by omega]

/-! ## The words of the standard -/

/-- The words for a key, a nonce of 96 bits and a counter of 32 bits. -/
def rfcWords (key32 nonce12 : List UInt8) (counter : ℕ) : ChachaWords :=
  { x0 := 0x61707865, x1 := 0x3320646e, x2 := 0x79622d32, x3 := 0x6b206574
    x4 := word32 key32 0, x5 := word32 key32 1, x6 := word32 key32 2, x7 := word32 key32 3
    x8 := word32 key32 4, x9 := word32 key32 5, x10 := word32 key32 6, x11 := word32 key32 7
    x12 := UInt32.ofNat counter
    x13 := word32 nonce12 0, x14 := word32 nonce12 1, x15 := word32 nonce12 2 }

/-- A byte of the encryption with these words. -/
def rfcByte (key32 nonce12 : List UInt8) (counter i : ℕ) (b : UInt8) : UInt8 :=
  b ^^^ (chachaBlock (rfcWords key32 nonce12 (counter + i / 64))).getD (i % 64) 0

/-- The key of the tag: the first half of the block 0. -/
def rfcMacKey (key32 nonce12 : List UInt8) : List UInt8 :=
  (chachaBlock (rfcWords key32 nonce12 0)).take 32

/-- Zeros up to a multiple of 16 bytes. -/
def pad16 (data : List UInt8) : List UInt8 :=
  List.replicate ((16 - data.length % 16) % 16) 0

/-- What the tag is computed over. -/
def rfcMacData (ad text : List UInt8) : List UInt8 :=
  ad ++ pad16 ad ++ (text ++ pad16 text) ++
    (LittleEndian.bytes 8 ad.length ++ LittleEndian.bytes 8 text.length)

/-- The tag. -/
def rfcTag (key32 nonce12 ad text : List UInt8) : List UInt8 :=
  BRPoly1305 (rfcMacKey key32 nonce12) (rfcMacData ad text)

variable {key32 nonce12 ad text data : List UInt8}

theorem word32_nonceIv
    (nonce12 : List UInt8) {i : ℕ}
    (hi : i < 2) :
    word32 (nonceIv nonce12) i = word32 nonce12 (i + 1) := by
  rw [word32, nonceIv, word32, List.drop_take, List.take_take, List.drop_drop]
  rw [show 4 + 4 * i = 4 * (i + 1) by omega, Nat.min_eq_left (by omega)]

/-- The words of the code, with the first word of the nonce in the counter. -/
theorem chachaWords_nonce
    (key32 nonce12 : List UInt8) {n : ℕ}
    (hn : n < 2 ^ 32) :
    chachaWords key32 (nonceIv nonce12) (nonceCounter nonce12 + UInt64.ofNat n) =
      rfcWords key32 nonce12 n := by
  have hshift : (nonceCounter nonce12).toNat = (word32 nonce12 0).toNat * 2 ^ 32 := by
    have hlt := (word32 nonce12 0).toNat_lt
    rw [nonceCounter, UInt64.toNat_shiftLeft, UInt32.toNat_toUInt64, Nat.shiftLeft_eq]
    change (word32 nonce12 0).toNat * 2 ^ 32 % 2 ^ 64 = _
    omega
  have hsum : (nonceCounter nonce12 + UInt64.ofNat n).toNat =
      (word32 nonce12 0).toNat * 2 ^ 32 + n := by
    have hlt := (word32 nonce12 0).toNat_lt
    rw [UInt64.toNat_add, hshift, UInt64.toNat_ofNat']
    omega
  have hlow : (nonceCounter nonce12 + UInt64.ofNat n).toUInt32 = UInt32.ofNat n := by
    apply UInt32.toNat_inj.mp
    rw [UInt64.toNat_toUInt32, hsum, UInt32.toNat_ofNat']
    omega
  have hhigh : ((nonceCounter nonce12 + UInt64.ofNat n) >>> 32).toUInt32 = word32 nonce12 0 := by
    have hlt := (word32 nonce12 0).toNat_lt
    apply UInt32.toNat_inj.mp
    rw [UInt64.toNat_toUInt32, UInt64.toNat_shiftRight, hsum, Nat.shiftRight_eq_div_pow]
    change ((word32 nonce12 0).toNat * 2 ^ 32 + n) / 2 ^ 32 % 2 ^ 32 = _
    omega
  rw [chachaWords, rfcWords, hlow, hhigh, word32_nonceIv nonce12 (by omega),
    word32_nonceIv nonce12 (by omega)]

/-- The counter does not carry into the nonce. -/
theorem rfcWords_after
    (key32 nonce12 : List UInt8) {c n : ℕ}
    (hn : c + n < 2 ^ 32) :
    (rfcWords key32 nonce12 c).after n = rfcWords key32 nonce12 (c + n) := by
  induction n with
  | zero =>
      rfl
  | succ n ih =>
      have hnext : UInt32.ofNat (c + n) + 1 = UInt32.ofNat (c + (n + 1)) := by
        apply UInt32.toNat_inj.mp
        rw [UInt32.toNat_add, UInt32.toNat_ofNat', UInt32.toNat_ofNat']
        change ((c + n) % 2 ^ 32 + 1) % 2 ^ 32 = _
        omega
      have hne : UInt32.ofNat (c + n) + 1 ≠ 0 := by
        rw [hnext]
        intro hzero
        have hnat := congrArg UInt32.toNat hzero
        rw [UInt32.toNat_ofNat'] at hnat
        change (c + (n + 1)) % 2 ^ 32 = 0 at hnat
        omega
      rw [ChachaWords.after_succ, ih (by omega), ChachaWords.advance,
        if_neg (show (rfcWords key32 nonce12 (c + n)).x12 + 1 ≠ 0 from hne), rfcWords, rfcWords]
      dsimp only
      rw [hnext]

/-- **The cipher** is that of the standard, byte for byte. -/
theorem BRChacha20_rfc
    (key32 nonce12 data : List UInt8) {c i : ℕ}
    (hi : c + i / 64 < 2 ^ 32) :
    (BRChacha20 key32 (nonceIv nonce12) data (nonceCounter nonce12 + UInt64.ofNat c))[i]? =
      data[i]?.map (rfcByte key32 nonce12 c i) := by
  rw [BRChacha20, getElem?_xorStream, chachaWords_nonce _ _ (by omega), chachaLoop_next,
    rfcWords_after _ _ hi]
  rfl

/-! ## The tag -/

/-- The key of the tag is the front of the first block. -/
theorem macKey_rfc
    (key32 nonce12 : List UInt8) :
    BRChacha20 key32 (nonceIv nonce12) (List.replicate 32 0) (nonceCounter nonce12) =
      rfcMacKey key32 nonce12 := by
  apply List.ext_getElem?
  intro i
  have hbyte := BRChacha20_rfc key32 nonce12 (List.replicate 32 0) (c := 0) (i := i)
  rw [show nonceCounter nonce12 + UInt64.ofNat 0 = nonceCounter nonce12 from
    UInt64.add_zero _] at hbyte
  by_cases hi : i < 32
  · rw [hbyte (by omega), List.getElem?_replicate, if_pos hi, rfcMacKey, List.getElem?_take,
      if_pos hi, Option.map_some, rfcByte, UInt8.zero_xor, show 0 + i / 64 = 0 by omega,
      Nat.mod_eq_of_lt (by omega : i < 64), List.getD_eq_getElem?_getD]
    rw [List.getElem?_eq_getElem (by rw [length_chachaBlock]; omega)]
    rfl
  · rw [List.getElem?_eq_none (by rw [length_BRChacha20, List.length_replicate]; omega),
      List.getElem?_eq_none]
    rw [rfcMacKey, List.length_take, length_chachaBlock]
    omega

/-- The padded pieces are one call. -/
theorem compressPadded_eq
    (h : Limbs) (macKey data : List UInt8) :
    compressPadded h macKey data = poly1305Compress h macKey (data ++ pad16 data) := by
  have hsplit := List.take_append_drop (data.length / 16 * 16) data
  have hfront : 16 ∣ (data.take (data.length / 16 * 16)).length := by
    rw [List.length_take, Nat.min_eq_left (by omega)]
    exact Dvd.intro_left _ rfl
  rw [compressPadded]
  by_cases hrest : data.length % 16 ≠ 0
  · rw [if_pos hrest, pad16, Nat.mod_eq_of_lt (by omega : 16 - data.length % 16 < 16)]
    conv_rhs => rw [← hsplit, List.append_assoc, Poly1305.poly1305Compress_append hfront,
      List.take_append_drop]
  · rw [if_neg hrest, pad16, show (16 - data.length % 16) % 16 = 0 by omega, List.replicate_zero,
      List.append_nil, List.take_of_length_le (by omega)]

theorem dvd_length_pad16
    (data : List UInt8) :
    16 ∣ (data ++ pad16 data).length := by
  rw [List.length_append, pad16, List.length_replicate]
  omega

/-- **The tag** of the five calls is that of the standard. -/
theorem aeadMac_rfc
    (key32 nonce12 text ad : List UInt8) :
    (aeadMac key32 nonce12 text ad).bytes = rfcTag key32 nonce12 ad text := by
  rw [aeadMac, macKey_rfc, compressPadded_eq, compressPadded_eq,
    ← Poly1305.poly1305Compress_append (dvd_length_pad16 ad),
    ← Poly1305.poly1305Compress_append, rfcTag, BRPoly1305, rfcMacData]
  rw [List.length_append]
  exact Nat.dvd_add (dvd_length_pad16 ad) (dvd_length_pad16 text)

/-! ## Encryption and decryption -/

/-- With room for it, the encryption writes the sealed text in front. -/
theorem encrypt_eq
    {out : List UInt8}
    (hout : data.length + 16 ≤ out.length)
    (hlen : data.length / 64 < UINT32_MAX) :
    BRChacha20Poly1305AEADEncrypt (some out) key32 nonce12 data ad =
      (data.length + 16, sealed key32 nonce12 data ad ++ out.drop (data.length + 16)) := by
  rw [BRChacha20Poly1305AEADEncrypt]
  dsimp only
  rw [if_neg (by omega), sealed]

/-- The sealed text is opened. -/
theorem decrypt_sealed
    {out : List UInt8}
    (hout : data.length ≤ out.length)
    (hlen : data.length / 64 < UINT32_MAX) :
    BRChacha20Poly1305AEADDecrypt (some out) key32 nonce12 (sealed key32 nonce12 data ad) ad =
      (data.length, data ++ out.drop data.length) := by
  rw [sealed, decrypt_eq (Words4.length_bytes _), length_BRChacha20, BRChacha20_BRChacha20,
    if_pos ⟨hlen, hout, rfl⟩]

/-- A tag that differs leaves everything as it is. -/
theorem decrypt_forged
    {out : List UInt8}
    (hlen : 16 ≤ data.length)
    (htag : data.drop (data.length - 16) ≠
      (aeadMac key32 nonce12 (data.take (data.length - 16)) ad).bytes) :
    BRChacha20Poly1305AEADDecrypt (some out) key32 nonce12 data ad = (0, out) := by
  have hsize : (data.drop (data.length - 16)).length = 16 := by
    rw [List.length_drop]
    omega
  nth_rewrite 1 [← List.take_append_drop (data.length - 16) data]
  rw [decrypt_eq hsize, if_neg (fun h => htag h.2.2)]

/-- **Authenticated encryption.**  What is encrypted is decrypted; the ciphertext
and the tag are those of the standard, with a counter that stays in its word; and
a ciphertext with another tag gives nothing. -/
theorem aead_spec
    (key32 nonce12 ad : List UInt8) :
    (∀ data out out' : List UInt8, data ≠ [] → data.length / 64 < UINT32_MAX →
      data.length + 16 ≤ out.length → data.length ≤ out'.length →
      let r := BRChacha20Poly1305AEADEncrypt (some out) key32 nonce12 data ad
      r.1 = data.length + 16 ∧
      BRChacha20Poly1305AEADDecrypt (some out') key32 nonce12 (r.2.take r.1) ad =
        (data.length, data ++ out'.drop data.length) ∧
      (∀ i < data.length, 1 + i / 64 < 2 ^ 32 ∧
        r.2[i]? = data[i]?.map (rfcByte key32 nonce12 1 i)) ∧
      (r.2.drop data.length).take 16 = rfcTag key32 nonce12 ad (r.2.take data.length)) ∧
    (∀ data out : List UInt8, 16 ≤ data.length →
      data.drop (data.length - 16) ≠ rfcTag key32 nonce12 ad (data.take (data.length - 16)) →
      BRChacha20Poly1305AEADDecrypt (some out) key32 nonce12 data ad = (0, out)) := by
  constructor
  · intro data out out' _ hlen hout hout' r
    have hr : r = (data.length + 16,
        sealed key32 nonce12 data ad ++ out.drop (data.length + 16)) := encrypt_eq hout hlen
    have htext : r.2.take data.length =
        BRChacha20 key32 (nonceIv nonce12) data (nonceCounter nonce12 + 1) := by
      rw [hr, sealed]
      dsimp only
      rw [List.append_assoc, List.take_left' (length_BRChacha20 _ _ _ _)]
    refine ⟨by rw [hr], ?_, ?_, ?_⟩
    · rw [hr]
      dsimp only
      rw [List.take_left' (length_sealed _ _ _ _), decrypt_sealed hout' hlen]
    · intro i hi
      have hmax : UINT32_MAX = 2 ^ 32 - 1 := rfl
      have hcounter : 1 + i / 64 < 2 ^ 32 := by omega
      refine ⟨hcounter, ?_⟩
      have hbyte := BRChacha20_rfc key32 nonce12 data hcounter
      change (BRChacha20 key32 (nonceIv nonce12) data (nonceCounter nonce12 + 1))[i]? = _ at hbyte
      rw [← hbyte, ← htext, List.getElem?_take, if_pos hi]
    · rw [htext, ← aeadMac_rfc, hr, sealed]
      dsimp only
      rw [List.append_assoc, List.drop_left' (length_BRChacha20 _ _ _ _),
        List.take_left' (Words4.length_bytes _)]
  · intro data out hlen htag
    rw [← aeadMac_rfc] at htag
    exact decrypt_forged hlen htag

theorem aead_spec_byte :
    let r := BRChacha20Poly1305AEADEncrypt (some (List.replicate 17 0)) (List.replicate 32 1)
      (List.replicate 12 2) [0x68] [0x61, 0x64]
    BRChacha20Poly1305AEADDecrypt (some [0xff]) (List.replicate 32 1) (List.replicate 12 2)
      (r.2.take r.1) [0x61, 0x64] = (1, [0x68]) :=
  ((aead_spec (List.replicate 32 1) (List.replicate 12 2) [0x61, 0x64]).1 [0x68]
    (List.replicate 17 0) [0xff] (by decide) (by decide) (by decide) (by decide)).2.1

end BreadwalletCore
