import BreadwalletCore.ReplicatedKVStore.Cipher

/-!
# The nonce of an encryption

`genNonce` is meant to count the microseconds since the epoch.  It reads
`tv_usec` where the seconds belong, so the nonce knows the microseconds of the
clock only.
-/

namespace BreadwalletCore

/-- `struct timeval` -/
structure Timeval where
  sec : ℕ
  usec : ℕ
deriving DecidableEq

/-- What `gettimeofday` can show. -/
structure Timeval.Valid (tv : Timeval) : Prop where
  sec_lt : tv.sec < 2 ^ 43
  usec_lt : tv.usec < 1000000

/-- What `Data.chacha20Poly1305AEADEncrypt` returns at a clock. -/
def encryptAt (secret : List UInt8) (tv : Timeval) (data : List UInt8) : List UInt8 :=
  chacha20Poly1305AEADEncrypt secret (genNonce tv.usec) data

/-- The nonce is sent in front of the ciphertext. -/
def sentNonce (l : List UInt8) : List UInt8 :=
  l.take 12

theorem sentNonce_encryptAt
    (secret : List UInt8) (tv : Timeval) (data : List UInt8) :
    sentNonce (encryptAt secret tv data) = genNonce tv.usec := by
  rw [sentNonce, encryptAt, chacha20Poly1305AEADEncrypt]
  exact List.take_left' (length_genNonce tv.usec)

/-- The microseconds can be read off the nonce. -/
theorem genNonce_inj
    {usec usec' : ℕ}
    (husec : usec < 1000000)
    (husec' : usec' < 1000000)
    (h : genNonce usec = genNonce usec') :
    usec = usec' := by
  have hbytes := List.append_cancel_left h
  have hvalue := congrArg LittleEndian.value hbytes
  rw [LittleEndian.value_bytes (by omega), LittleEndian.value_bytes (by omega)] at hvalue
  omega

/-- Two calls with one key use one nonce exactly when their clocks show the same
microseconds, in whatever second. -/
theorem sentNonce_ne_iff
    (secret data data' : List UInt8) {tv tv' : Timeval}
    (htv : tv.Valid)
    (htv' : tv'.Valid) :
    (tv ≠ tv' → sentNonce (encryptAt secret tv data) ≠ sentNonce (encryptAt secret tv' data')) ↔
      (tv.usec = tv'.usec → tv.sec = tv'.sec) := by
  rw [sentNonce_encryptAt, sentNonce_encryptAt]
  constructor
  · intro h husec
    by_contra hsec
    have hne : tv ≠ tv' := fun heq => hsec (congrArg Timeval.sec heq)
    exact h hne (congrArg genNonce husec)
  · intro h hne hnonce
    have husec := genNonce_inj htv.usec_lt htv'.usec_lt hnonce
    obtain ⟨sec, usec⟩ := tv
    obtain ⟨sec', usec'⟩ := tv'
    obtain rfl : sec = sec' := h husec
    obtain rfl : usec = usec' := husec
    exact hne rfl

theorem sentNonce_ne_iff_minute :
    (({ sec := 60, usec := 1 } : Timeval) ≠ { sec := 60, usec := 2 } →
      sentNonce (encryptAt [] { sec := 60, usec := 1 } []) ≠
        sentNonce (encryptAt [] { sec := 60, usec := 2 } [])) ↔
      (1 = 2 → 60 = 60) :=
  sentNonce_ne_iff [] [] [] ⟨by norm_num, by norm_num⟩ ⟨by norm_num, by norm_num⟩

/-- One second later, at the same microsecond, the nonce is the same. -/
theorem not_sentNonce_ne :
    ¬ ∀ (secret data data' : List UInt8) (tv tv' : Timeval), tv.Valid → tv'.Valid → tv ≠ tv' →
      sentNonce (encryptAt secret tv data) ≠ sentNonce (encryptAt secret tv' data') := by
  intro h
  refine h [] [] [] { sec := 0, usec := 0 } { sec := 1, usec := 0 } ⟨by norm_num, by norm_num⟩
    ⟨by norm_num, by norm_num⟩ (by decide) ?_
  rw [sentNonce_encryptAt, sentNonce_encryptAt]

end BreadwalletCore
