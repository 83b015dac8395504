import BreadwalletCore.Crypto
import BreadwalletCore.ReplicatedKVStore.Sync

/-!
# The cipher of the key value store

`chacha20Poly1305AEADEncrypt` and `chacha20Poly1305AEADDecrypt` of
`Extensions.swift` call the C functions twice, once for the size of the buffer.
Neither looks at the result of its second call: a ciphertext whose tag does not
verify leaves the new buffer as it is, and its zeros are returned.
-/

namespace BreadwalletCore

/-- The nonce at a clock that shows `usec` microseconds. -/
def genNonce (usec : ℕ) : List UInt8 :=
  List.replicate 4 0 ++ LittleEndian.bytes 8 (usec * 1000000 + usec)

def chacha20Poly1305AEADEncrypt (secret nonce data : List UInt8) : List UInt8 :=
  let outSize := (BRChacha20Poly1305AEADEncrypt none secret nonce data []).1
  let outData := List.replicate outSize 0
  nonce ++ (BRChacha20Poly1305AEADEncrypt (some outData) secret nonce data []).2

def chacha20Poly1305AEADDecrypt (secret data : List UInt8) :
    Except KVFault (List UInt8) :=
  if data.length > 12 then
    -- one byte more than the nonce; the C function reads 12
    let nonce := data.take 13
    let inData := data.drop 12
    let outSize := (BRChacha20Poly1305AEADDecrypt none secret nonce inData []).1
    let outData := List.replicate outSize 0
    .ok (BRChacha20Poly1305AEADDecrypt (some outData) secret nonce inData []).2
  else
    .error (.thrown .malformedData)

/-- The nonce in front of a ciphertext whose tag verifies. -/
def Authentic (secret data : List UInt8) : Prop :=
  ∃ nonce text tag, data = nonce ++ (text ++ tag) ∧ nonce.length = 12 ∧
    tag = (aeadMac secret nonce text []).bytes

/-- Data is returned only if it is authentic, and else the call throws. -/
def DecryptsAuthentic (secret data : List UInt8) : Prop :=
  ((∃ plain, chacha20Poly1305AEADDecrypt secret data = .ok plain) → Authentic secret data) ∧
    (¬ Authentic secret data →
      ∃ e, chacha20Poly1305AEADDecrypt secret data = .error (.thrown e))

/-- What is encrypted at a clock is decrypted again. -/
def Recovers (secret data : List UInt8) (usec : ℕ) : Prop :=
  chacha20Poly1305AEADDecrypt secret (chacha20Poly1305AEADEncrypt secret (genNonce usec) data) =
    .ok data

/-- The cipher under the key of the store. -/
def chachaPlatform (keyMatches : String → ℕ) (secret : List UInt8) : KVPlatform where
  keyMatches := keyMatches
  encrypt := chacha20Poly1305AEADEncrypt secret
  decrypt := fun data => (chacha20Poly1305AEADDecrypt secret data).toOption

/-- The answer to a `get` is stored only if it is authentic, where the replication
is encrypted. -/
def PullsAuthentic (keyMatches : String → ℕ) (secret : List UInt8)
    (store : BRReplicatedKVStore) (answer : RemoteAnswer) : Prop :=
  store.encryptedReplication = true → ∀ localVer value remoteVer,
    BRReplicatedKVStore.syncAnswer (chachaPlatform keyMatches secret) store answer
        (.getting localVer) = .goto (.store localVer value remoteVer) →
      Authentic secret answer.data

section Nonce

/-- Only the first 12 bytes of a nonce are read. -/
theorem nonceIv_append
    {nonce : List UInt8} (l : List UInt8)
    (hlen : nonce.length = 12) :
    nonceIv (nonce ++ l) = nonceIv nonce := by
  have hdrop : (nonce.drop 4).length = 8 := by
    rw [List.length_drop, hlen]
  rw [nonceIv, nonceIv, List.drop_append_of_le_length (by omega),
    List.take_append_of_le_length hdrop.ge]

theorem nonceCounter_append
    {nonce : List UInt8} (l : List UInt8)
    (hlen : nonce.length = 12) :
    nonceCounter (nonce ++ l) = nonceCounter nonce := by
  rw [nonceCounter, nonceCounter, word32, word32, Nat.mul_zero, List.drop_zero, List.drop_zero,
    List.take_append_of_le_length (by omega)]

theorem aeadMac_append
    {nonce : List UInt8} (l : List UInt8)
    (hlen : nonce.length = 12) (secret text ad : List UInt8) :
    aeadMac secret (nonce ++ l) text ad = aeadMac secret nonce text ad := by
  rw [aeadMac, aeadMac, nonceIv_append l hlen, nonceCounter_append l hlen]

@[simp] theorem length_genNonce
    (usec : ℕ) :
    (genNonce usec).length = 12 := by
  simp [genNonce]

end Nonce

section Wrappers

variable {secret nonce text tag data : List UInt8}

/-- The decryption of a nonce, a ciphertext and its tag. -/
theorem chacha20Poly1305AEADDecrypt_eq
    (hnonce : nonce.length = 12)
    (htag : tag.length = 16) :
    chacha20Poly1305AEADDecrypt secret (nonce ++ (text ++ tag)) =
      .ok (if text.length / 64 < UINT32_MAX ∧ tag = (aeadMac secret nonce text []).bytes then
          BRChacha20 secret (nonceIv nonce) text (nonceCounter nonce + 1)
        else
          List.replicate text.length 0) := by
  have hlong : (nonce ++ (text ++ tag)).length > 12 := by
    simp only [List.length_append]
    omega
  have hfirst : (nonce ++ (text ++ tag)).take 13 = nonce ++ (text ++ tag).take 1 := by
    rw [List.take_append, hnonce, List.take_of_length_le (by omega)]
  have hsize : (BRChacha20Poly1305AEADDecrypt none secret (nonce ++ (text ++ tag).take 1)
      (text ++ tag) []).1 = text.length := by
    rw [BRChacha20Poly1305AEADDecrypt, List.length_append, htag, if_neg (by omega)]
    omega
  rw [chacha20Poly1305AEADDecrypt, if_pos hlong, hfirst, List.drop_left' hnonce]
  dsimp only
  rw [hsize, decrypt_sized htag (List.length_replicate ..), aeadMac_append _ hnonce,
    nonceIv_append _ hnonce, nonceCounter_append _ hnonce]

theorem chacha20Poly1305AEADDecrypt_short
    (hshort : data.length ≤ 12) :
    chacha20Poly1305AEADDecrypt secret data = .error (.thrown .malformedData) := by
  rw [chacha20Poly1305AEADDecrypt, if_neg (by omega)]

/-- Every longer string is decrypted to something. -/
theorem chacha20Poly1305AEADDecrypt_ok
    (hlong : 12 < data.length) :
    ∃ plain, chacha20Poly1305AEADDecrypt secret data = .ok plain := by
  rw [chacha20Poly1305AEADDecrypt, if_pos hlong]
  exact ⟨_, rfl⟩

theorem Authentic.long
    (h : Authentic secret data) :
    28 ≤ data.length := by
  obtain ⟨nonce, text, tag, rfl, hnonce, rfl⟩ := h
  simp only [List.length_append, Words4.length_bytes]
  omega

theorem chacha20Poly1305AEADEncrypt_eq :
    chacha20Poly1305AEADEncrypt secret nonce data =
      nonce ++ if UINT32_MAX ≤ data.length / 64 then List.replicate (data.length + 16) 0
        else sealed secret nonce data [] := by
  have hsize : (BRChacha20Poly1305AEADEncrypt none secret nonce data []).1 =
      data.length + 16 := by
    rw [BRChacha20Poly1305AEADEncrypt]
  rw [chacha20Poly1305AEADEncrypt, hsize]
  rw [encrypt_sized (List.length_replicate ..)]

/-- Decrypting what was encrypted gives it back exactly where the C function
accepts its length, or where it is all zeros anyway. -/
theorem decrypt_encrypt_iff
    (hnonce : nonce.length = 12) :
    chacha20Poly1305AEADDecrypt secret (chacha20Poly1305AEADEncrypt secret nonce data) =
        .ok data ↔
      data.length / 64 < UINT32_MAX ∨ data = List.replicate data.length 0 := by
  rw [chacha20Poly1305AEADEncrypt_eq]
  by_cases hlong : UINT32_MAX ≤ data.length / 64
  · have hnot : ¬ data.length / 64 < UINT32_MAX := by
      omega
    rw [if_pos hlong, List.replicate_add, chacha20Poly1305AEADDecrypt_eq hnonce
      (List.length_replicate ..), List.length_replicate, if_neg (fun h => hnot h.1)]
    constructor
    · intro h
      exact .inr (Except.ok.inj h).symm
    · rintro (hshort | hzeros)
      · exact absurd hshort hnot
      · rw [← hzeros]
  · have hfits : data.length / 64 < UINT32_MAX := by
      omega
    rw [if_neg hlong, sealed]
    rw [chacha20Poly1305AEADDecrypt_eq hnonce (Words4.length_bytes _), length_BRChacha20,
      if_pos ⟨hfits, rfl⟩, BRChacha20_BRChacha20]
    exact iff_of_true rfl (.inl hfits)

end Wrappers

theorem decryptsAuthentic_iff
    (secret data : List UInt8) :
    DecryptsAuthentic secret data ↔ data.length ≤ 12 ∨ Authentic secret data := by
  constructor
  · rintro ⟨hreturns, -⟩
    rcases Nat.lt_or_ge 12 data.length with hlong | hshort
    · exact .inr (hreturns (chacha20Poly1305AEADDecrypt_ok hlong))
    · exact .inl hshort
  · rintro (hshort | hauthentic)
    · refine ⟨?_, fun _ => ⟨_, chacha20Poly1305AEADDecrypt_short hshort⟩⟩
      rintro ⟨plain, hplain⟩
      rw [chacha20Poly1305AEADDecrypt_short hshort] at hplain
      cases hplain
    · exact ⟨fun _ => hauthentic, fun hforged => absurd hauthentic hforged⟩

/-- An answer that decrypts is stored. -/
theorem syncAnswer_getting
    {keyMatches : String → ℕ} {secret : List UInt8} {store : BRReplicatedKVStore}
    {answer : RemoteAnswer}
    (hencrypted : store.encryptedReplication = true)
    (herr : answer.err = none) (localVer : ℕ) :
    BRReplicatedKVStore.syncAnswer (chachaPlatform keyMatches secret) store answer
        (.getting localVer) =
      match (chacha20Poly1305AEADDecrypt secret answer.data).toOption with
      | some value => .goto (.store localVer value answer.version)
      | none => .goto (.discard localVer) := by
  rw [BRReplicatedKVStore.syncAnswer, herr, BRReplicatedKVStore.openRemote, if_pos hencrypted]
  rfl

theorem pullsAuthentic_iff
    (keyMatches : String → ℕ) (secret : List UInt8) (store : BRReplicatedKVStore)
    (answer : RemoteAnswer) :
    PullsAuthentic keyMatches secret store answer ↔
      store.encryptedReplication = false ∨ answer.err ≠ none ∨ answer.data.length ≤ 12 ∨
        Authentic secret answer.data := by
  constructor
  · intro hpulls
    by_contra hnot
    push Not at hnot
    obtain ⟨hencrypted, herr, hlong, hforged⟩ := hnot
    have hflag : store.encryptedReplication = true := by
      simpa using hencrypted
    obtain ⟨plain, hplain⟩ := chacha20Poly1305AEADDecrypt_ok hlong
    refine hforged (hpulls hflag 0 plain answer.version ?_)
    rw [syncAnswer_getting hflag herr, hplain]
    rfl
  · rintro hcond hencrypted localVer value remoteVer hstores
    rcases hcond with hplain | herr | hshort | hauthentic
    · rw [hplain] at hencrypted
      cases hencrypted
    · rw [BRReplicatedKVStore.syncAnswer] at hstores
      split at hstores
      · cases hstores
      · rename_i hnone
        exact absurd hnone herr
    · by_cases herr : answer.err = none
      · rw [syncAnswer_getting hencrypted herr, chacha20Poly1305AEADDecrypt_short hshort] at hstores
        cases hstores
      · rw [BRReplicatedKVStore.syncAnswer] at hstores
        split at hstores
        · cases hstores
        · rename_i hnone
          exact absurd hnone herr
    · exact hauthentic

/-- **Authenticity of decrypted metadata**: exactly a string of at most 12 bytes or
an authentic one is handled as the cipher promises, exactly a text of an accepted
length or of zeros is recovered, and exactly where the answer of the server is
refused or authentic the pull keeps forged values out. -/
theorem chacha20Poly1305AEAD_authentic_iff
    (keyMatches : String → ℕ) (secret data : List UInt8) (usec : ℕ)
    (store : BRReplicatedKVStore) (answer : RemoteAnswer) :
    (DecryptsAuthentic secret data ↔ data.length ≤ 12 ∨ Authentic secret data) ∧
    (Recovers secret data usec ↔
      data.length / 64 < UINT32_MAX ∨ data = List.replicate data.length 0) ∧
    (PullsAuthentic keyMatches secret store answer ↔
      store.encryptedReplication = false ∨ answer.err ≠ none ∨ answer.data.length ≤ 12 ∨
        Authentic secret answer.data) := by
  exact ⟨decryptsAuthentic_iff secret data, decrypt_encrypt_iff (length_genNonce usec),
    pullsAuthentic_iff keyMatches secret store answer⟩

/-- Thirteen zeros are no ciphertext, and decrypt to the empty string. -/
theorem not_decryptsAuthentic :
    chacha20Poly1305AEADDecrypt (List.replicate 32 1) (List.replicate 13 0) = .ok [] ∧
      ¬ DecryptsAuthentic (List.replicate 32 1) (List.replicate 13 0) := by
  refine ⟨rfl, ?_⟩
  rw [decryptsAuthentic_iff]
  rintro (hshort | hauthentic)
  · simp at hshort
  · have hlong := hauthentic.long
    simp at hlong

end BreadwalletCore
