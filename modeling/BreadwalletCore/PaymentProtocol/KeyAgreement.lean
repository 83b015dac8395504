import BreadwalletCore.PaymentProtocol.EncryptedMessage

/-!
# The key of two parties

Either party of a message multiplies the point of the other with its own secret,
and both find the same point.  A party that finds its own public key in the
message as the receiver's takes the sender's, and else the receiver's.
-/

namespace BreadwalletCore

open Segment (slice)

namespace EncryptedMessage

variable {P : Type} [AddCommGroup P] {env : MessageEnv P}

/-! ## Key agreement -/

/-- A key with a valid secret, and the point of the secret behind it. -/
structure IsPrivate (env : MessageEnv P) (key : BRKey) : Prop where
  valid : env.curve.seckeyVerify key.secret = true
  publicKey : key.publicKey env.curve =
    env.curve.serialize key.compressed (scalarValue key.secret • env.curve.generator)

/-- A key without a valid secret, and the public key of another. -/
structure IsPublicOf (env : MessageEnv P) (pub key : BRKey) : Prop where
  publicKey : pub.publicKey env.curve = key.publicKey env.curve
  invalid : env.curve.seckeyVerify pub.secret = false

/-- How the two formats differ. -/
def FormatLaw (curve : Secp256k1 P) : Prop :=
  ∀ p, p ≠ 0 → compressPoint (curve.serialize false p) = curve.serialize true p

theorem IsPrivate.isPubKey
    {key : BRKey}
    (h : IsPrivate env key) :
    IsPubKey env.curve (key.publicKey env.curve) :=
  ⟨_, _, Secp256k1.point_ne_zero h.valid, h.publicKey⟩

theorem compressPoint_serialize
    (hformat : FormatLaw env.curve)
    (compressed : Bool) {p : P}
    (hp : p ≠ 0) :
    compressPoint (env.curve.serialize compressed p) = env.curve.serialize true p := by
  cases compressed
  · exact hformat p hp
  · have hlen : (env.curve.serialize true p).length = 33 := env.curve.length_serialize true p
    rw [compressPoint, if_neg (by omega), List.take_of_length_le hlen.le]

/-- The secret that two keys share. -/
def sharedSecret (env : MessageEnv P) (a b : BRKey) : List UInt8 :=
  slice (env.curve.serialize true
    (scalarValue a.secret • scalarValue b.secret • env.curve.generator)) 1 32

theorem sharedSecret_comm
    (a b : BRKey) :
    sharedSecret env a b = sharedSecret env b a := by
  rw [sharedSecret, sharedSecret, smul_smul, smul_smul, Nat.mul_comm]

theorem ecdh_eq
    (hformat : FormatLaw env.curve)
    {a b pubKey : BRKey}
    (ha : IsPrivate env a)
    (hb : IsPrivate env b)
    (hpub : pubKey.publicKey env.curve = b.publicKey env.curve) :
    ecdh env a pubKey = sharedSecret env a b := by
  have hpoint := Secp256k1.point_ne_zero hb.valid
  obtain ⟨hpos, hlt⟩ := Secp256k1.seckeyVerify_iff.mp ha.valid
  rw [ecdh, hpub, hb.publicKey, compressPoint_serialize hformat _ hpoint,
    Secp256k1.BRSecp256k1PointMul, env.curve.parse_serialize _ _ hpoint]
  dsimp only
  rw [if_pos ⟨hlt, hpos.ne'⟩, sharedSecret]

/-- Keys with the same public key have the same point. -/
theorem IsPrivate.point_eq
    {a b : BRKey}
    (ha : IsPrivate env a)
    (hb : IsPrivate env b)
    (heq : a.publicKey env.curve = b.publicKey env.curve) :
    scalarValue a.secret • env.curve.generator = scalarValue b.secret • env.curve.generator := by
  rw [ha.publicKey, hb.publicKey] at heq
  have hparse := congrArg env.curve.parse heq
  rw [env.curve.parse_serialize _ _ (Secp256k1.point_ne_zero ha.valid),
    env.curve.parse_serialize _ _ (Secp256k1.point_ne_zero hb.valid)] at hparse
  exact Option.some.inj hparse

/-- **Agreement.**  Either party finds the secret that the two share. -/
theorem messageCEK_eq
    (hformat : FormatLaw env.curve)
    {receiver sender privKey : BRKey}
    (hreceiver : IsPrivate env receiver)
    (hsender : IsPrivate env sender)
    {msg : BRPaymentProtocolEncryptedMessage}
    (hreceiverPub : msg.receiverPubKey.publicKey env.curve = receiver.publicKey env.curve)
    (hsenderPub : msg.senderPubKey.publicKey env.curve = sender.publicKey env.curve)
    (hprivKey : privKey = receiver ∨ privKey = sender) :
    messageCEK env msg privKey = keysOf env (sharedSecret env receiver sender) msg.nonce := by
  rw [messageCEK, hreceiverPub]
  by_cases heq : privKey.publicKey env.curve = receiver.publicKey env.curve
  · rw [if_neg (not_not.mpr heq)]
    rcases hprivKey with rfl | rfl
    · rw [ecdh_eq hformat hreceiver hsender hsenderPub]
    · -- the two parties have one key
      rw [ecdh_eq hformat hsender hsender hsenderPub, sharedSecret, sharedSecret,
        smul_comm (scalarValue receiver.secret), hsender.point_eq hreceiver heq]
  · rw [if_pos heq]
    rcases hprivKey with rfl | rfl
    · exact absurd rfl heq
    · rw [ecdh_eq hformat hsender hreceiver hreceiverPub, sharedSecret_comm]

/-! ## Keys that are set -/

/-- A key that was set from a valid secret is private. -/
theorem isPrivate_setSecret
    {secret : UInt256}
    (hsecret : env.curve.seckeyVerify secret = true)
    (compressed : Bool) :
    IsPrivate env (BRKey.setSecret env.curve secret compressed).1 :=
  ⟨hsecret, BRKey.publicKey_setSecret_format hsecret compressed⟩

/-- A key that was set from the public key of another has no secret. -/
theorem isPublicOf_setPubKey
    {key : BRKey}
    (hkey : IsPrivate env key) :
    IsPublicOf env (BRKey.setPubKey env.curve (key.publicKey env.curve)).1 key := by
  refine ⟨hkey.isPubKey.publicKey_setPubKey, ?_⟩
  have hzero : scalarValue 0 = 0 := by
    decide +kernel
  rw [BRKey.setPubKey, Secp256k1.seckeyVerify]
  dsimp only
  rw [hzero]
  rfl

end EncryptedMessage

end BreadwalletCore
