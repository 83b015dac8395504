import BreadwalletCore.Crypto.Aead
import BreadwalletCore.Key
import BreadwalletCore.PaymentProtocol.Constructed

/-!
# Encrypted messages

`BRPaymentProtocolEncryptedMessage`: its construction, parsing and serialization,
its signature and its decryption.  Either party finds the same key, from its own
secret and the public key of the other; which key is the other's is found by
comparing public keys.
-/

namespace BreadwalletCore

open ProtoBuf ByteWriter
open Segment (slice)

/-! ## Keys of a message -/

/-- `BRSecp256k1PointMul`; the point is left alone when it fails. -/
def Secp256k1.BRSecp256k1PointMul {P : Type} [AddCommGroup P] (curve : Secp256k1 P)
    (p : List UInt8) (i : UInt256) : List UInt8 :=
  match curve.parse p with
  | some pubkey =>
      if scalarValue i < curve.order ∧ scalarValue i ≠ 0 then
        curve.serialize true (scalarValue i • pubkey)
      else p
  | none => p

/-- What the messages use: the curve with ECDSA, whose signatures are in DER, and
the hash functions. -/
structure MessageEnv (P : Type) [AddCommGroup P] where
  curve : Secp256k1 P
  ecdsaSign : UInt256 → UInt256 → List UInt8
  ecdsaVerify : P → UInt256 → List UInt8 → Bool
  sha256 : List UInt8 → UInt256
  sha512 : List UInt8 → List UInt8
  hmacSHA256 : List UInt8 → List UInt8 → List UInt8

/-- The bytes of the last loop of `BRHMACDRBG`, and `V` behind it. -/
def drbgOutput (hmac : List UInt8 → List UInt8 → List UInt8) (K : List UInt8) :
    ℕ → List UInt8 → List UInt8 × List UInt8
  | 0, V => ([], V)
  | n + 1, V =>
      let V := hmac K V
      let rest := drbgOutput hmac K n V
      (V ++ rest.1, rest.2)

/-- `BRHMACDRBG` with a hash of 32 bytes: the output, `K` and `V`. -/
def BRHMACDRBG (hmac : List UInt8 → List UInt8 → List UInt8) (outLen : ℕ) (K V : List UInt8)
    (seed nonce ps : Option (List UInt8)) : List UInt8 × List UInt8 × List UInt8 :=
  let given := seed.isSome || nonce.isSome || ps.isSome
  let K := if given then List.replicate 32 0x00 else K
  let V := if given then List.replicate 32 0x01 else V
  let entropy := seed.getD [] ++ nonce.getD [] ++ ps.getD []
  let K := hmac K (V ++ [0x00] ++ entropy)
  let V := hmac K V
  let K' := if given then hmac K (V ++ [0x01] ++ entropy) else K
  let V' := if given then hmac K' V else V
  let out := drbgOutput hmac K' ((outLen + 31) / 32) V'
  (out.1.take outLen, K', out.2)

abbrev encryptedMsgTypeKey : ℕ := 1
abbrev encryptedMessageKey : ℕ := 2
abbrev encryptedReceiverPkKey : ℕ := 3
abbrev encryptedSenderPkKey : ℕ := 4
abbrev encryptedNonceKey : ℕ := 5
abbrev encryptedSignatureKey : ℕ := 6
abbrev encryptedIdentifierKey : ℕ := 7
abbrev encryptedStatusCodeKey : ℕ := 8
abbrev encryptedStatusMsgKey : ℕ := 9

structure BRPaymentProtocolEncryptedMessage where
  msgType : UInt32 := 0
  message : Option (List UInt8) := none
  msgLen : ℕ := 0
  receiverPubKey : BRKey := {}
  senderPubKey : BRKey := {}
  nonce : UInt64 := 0
  signature : Option (List UInt8) := none
  sigLen : ℕ := 0
  identifier : Option (List UInt8) := none
  identLen : ℕ := 0
  statusCode : UInt64 := 0
  statusMsg : Option (List UInt8) := none
  ctx : ProtoBufContext

/-- The point of `_BRECDH` in the compressed format. -/
def compressPoint (p : List UInt8) : List UInt8 :=
  if p.length = 65 then ((if p.getD 64 0 % 2 ≠ 0 then 0x03 else 0x02) :: p.drop 1).take 33
  else p.take 33

namespace EncryptedMessage

variable {P : Type} [AddCommGroup P] (env : MessageEnv P) (junk : ℕ → UInt8)

/-- `_BRECDH` -/
def ecdh (privKey pubKey : BRKey) : List UInt8 :=
  slice (env.curve.BRSecp256k1PointMul (compressPoint (pubKey.publicKey env.curve))
    privKey.secret) 1 32

/-- The key and the initialization vector for a shared secret.  The first call
sets `K` and `V`, which hold nothing before. -/
def keysOf (secret : List UInt8) (nonce : UInt64) : List UInt8 × List UInt8 :=
  let cek := BRHMACDRBG env.hmacSHA256 32 [] [] (some (env.sha512 secret))
    (some (LittleEndian.bytes 8 nonce.toNat).reverse) none
  let iv := BRHMACDRBG env.hmacSHA256 12 cek.2.1 cek.2.2 none none none
  (cek.1, iv.1)

/-- `_BRPaymentProtocolEncryptedMessageCEK` -/
def messageCEK (msg : BRPaymentProtocolEncryptedMessage) (privKey : BRKey) :
    List UInt8 × List UInt8 :=
  let pk := privKey.publicKey env.curve
  let rpk := msg.receiverPubKey.publicKey env.curve
  let pubKey := if pk ≠ rpk then msg.receiverPubKey else msg.senderPubKey
  keysOf env (ecdh env privKey pubKey) msg.nonce

/-- `"%llu"` -/
def decimal (n : ℕ) : List UInt8 :=
  (Nat.toDigits 10 n).map (fun c => UInt8.ofNat c.toNat)

/-- The associated data, cut to the length allocated: the status, of which the
number is left out if it is a default. -/
def associatedData (isDefault : Bool) (statusCode : UInt64) (statusMsg : Option (List UInt8)) :
    List UInt8 :=
  let text := cString (statusMsg.getD [])
  if isDefault then text.take (20 + text.length + 1)
  else (decimal statusCode.toNat ++ text).take (20 + text.length)

/-- `BRPaymentProtocolEncryptedMessageSerialize` -/
def writeEncrypted (msg : BRPaymentProtocolEncryptedMessage) (w : ByteWriter UInt8) :
    ByteWriter UInt8 :=
  let rpk := msg.receiverPubKey.publicKey env.curve
  let spk := msg.senderPubKey.publicKey env.curve
  let w := setInt w msg.msgType.toNat encryptedMsgTypeKey
  let w := setBytes w msg.message msg.msgLen encryptedMessageKey
  let w := setBytes w (some rpk) rpk.length encryptedReceiverPkKey
  let w := setBytes w (some spk) spk.length encryptedSenderPkKey
  let w := setInt w msg.nonce.toNat encryptedNonceKey
  let w := if msg.signature.isSome then
      setBytes w msg.signature msg.sigLen encryptedSignatureKey
    else w
  let w := if msg.identifier.isSome then
      setBytes w msg.identifier msg.identLen encryptedIdentifierKey
    else w
  let w := if msg.ctx.isDefault encryptedStatusCodeKey then w
    else setInt w msg.statusCode.toNat encryptedStatusCodeKey
  let w := if msg.statusMsg.isSome then setString w msg.statusMsg encryptedStatusMsgKey else w
  setUnknown w msg.ctx

/-- The arguments of `BRPaymentProtocolEncryptedMessageNew` but for the keys. -/
structure EncryptedArgs where
  msgType : UInt32
  message : List UInt8
  nonce : UInt64
  identifier : Option (List UInt8)
  statusCode : UInt64
  statusMsg : Option (List UInt8)

/-- The message of `BRPaymentProtocolEncryptedMessageNew` before it is
encrypted. -/
def startMessage (args : EncryptedArgs) (receiverKey senderKey : BRKey) :
    BRPaymentProtocolEncryptedMessage where
  msgType := args.msgType
  receiverPubKey := (BRKey.setPubKey env.curve (receiverKey.publicKey env.curve)).1
  senderPubKey := (BRKey.setPubKey env.curve (senderKey.publicKey env.curve)).1
  nonce := args.nonce
  identifier := (newBytes args.identifier).1
  identLen := (newBytes args.identifier).2
  statusCode := args.statusCode
  statusMsg := newString args.statusMsg
  ctx := newContext (encryptedStatusMsgKey + 1)

/-- `BRPaymentProtocolEncryptedMessageNew`, with its assertion; that `BRKeyPrivKey`
writes anything means that the key has a valid secret. -/
def newEncrypted (args : EncryptedArgs) (receiverKey senderKey : BRKey) :
    Except ProtoBufFault (Option BRPaymentProtocolEncryptedMessage) :=
  if !env.curve.seckeyVerify receiverKey.secret && !env.curve.seckeyVerify senderKey.secret then
    .error .assertion
  else
    let msg := startMessage env args receiverKey senderKey
    let privKey := if env.curve.seckeyVerify receiverKey.secret then receiverKey else senderKey
    let keys := messageCEK env msg privKey
    let ad := associatedData false args.statusCode args.statusMsg
    let out := BRChacha20Poly1305AEADEncrypt (some (newBuf junk (args.message.length + 16)))
      keys.1 keys.2 args.message ad
    let array := bytes none (some (out.2.take out.1)) out.1
    let msg := { msg with message := array.1, msgLen := array.2 }
    if msg.message.isNone then .ok none
    else
      let md := env.sha256 (serialized junk (writeEncrypted env { msg with signature := some [0] }))
      let sig := env.ecdsaSign privKey.secret md
      .ok (some { msg with
        signature := (bytes none (some sig) sig.length).1
        sigLen := (bytes none (some sig) sig.length).2 })

/-- What the loop of `BRPaymentProtocolEncryptedMessageParse` changes. -/
structure EncryptedParser where
  msg : BRPaymentProtocolEncryptedMessage
  gotMsgType : Bool := false
  gotNonce : Bool := false
  gotReceiverPK : Bool := false
  gotSenderPK : Bool := false

/-- `BRKeySetPubKey`, with its assertion. -/
def readPubKey (data : Option (List UInt8)) (dataLen : ℕ) : Except ProtoBufFault (BRKey × Bool) :=
  match data with
  | some pubKey =>
      if dataLen = 33 ∨ dataLen = 65 then .ok (BRKey.setPubKey env.curve pubKey)
      else .error .assertion
  | none => .error .assertion

/-- The body of the loop of `BRPaymentProtocolEncryptedMessageParse`. -/
def encryptedStep : FieldStep EncryptedParser :=
  fun s key i data dataLen =>
    match key / 8 with
    | 1 => .ok { s with msg := { s.msg with msgType := UInt32.ofNat i }, gotMsgType := true }
    | 2 => .ok { s with msg := { s.msg with
        message := (bytes s.msg.message data dataLen).1
        msgLen := (bytes s.msg.message data dataLen).2 } }
    | 3 => do
        let pk ← readPubKey env data dataLen
        return { s with msg := { s.msg with receiverPubKey := pk.1 }, gotReceiverPK := pk.2 }
    | 4 => do
        let pk ← readPubKey env data dataLen
        return { s with msg := { s.msg with senderPubKey := pk.1 }, gotSenderPK := pk.2 }
    | 5 => .ok { s with msg := { s.msg with nonce := UInt64.ofNat i }, gotNonce := true }
    | 6 => .ok { s with msg := { s.msg with
        signature := (bytes s.msg.signature data dataLen).1
        sigLen := (bytes s.msg.signature data dataLen).2 } }
    | 7 => .ok { s with msg := { s.msg with
        identifier := (bytes s.msg.identifier data dataLen).1
        identLen := (bytes s.msg.identifier data dataLen).2 } }
    | 8 => .ok { s with msg := { s.msg with
        statusCode := UInt64.ofNat i
        ctx := s.msg.ctx.setDefault encryptedStatusCodeKey false } }
    | 9 => .ok { s with msg := { s.msg with statusMsg := string s.msg.statusMsg data dataLen } }
    | _ => do
        let ctx ← s.msg.ctx.addUnknown junk key i data dataLen
        return { s with msg := { s.msg with ctx := ctx } }

/-- The end of `BRPaymentProtocolEncryptedMessageParse`. -/
def finishEncrypted (s : EncryptedParser) : Option BRPaymentProtocolEncryptedMessage :=
  if !s.gotMsgType || s.msg.message.isNone || !s.gotReceiverPK || !s.gotSenderPK || !s.gotNonce
  then none
  else some s.msg

/-- `BRPaymentProtocolEncryptedMessageParse` -/
def parseEncrypted (buf : Option (List UInt8)) (bufLen : ℕ) :
    Except ProtoBufFault (Option BRPaymentProtocolEncryptedMessage) := do
  let s ← readMessage (encryptedStep env junk) buf bufLen
    { msg :=
        { ctx := (newContext (encryptedStatusMsgKey + 1)).setDefault encryptedStatusCodeKey true } }
  return finishEncrypted s

/-- `BRKeyVerify`, with its assertion on the signature. -/
def keyVerify (key : BRKey) (md : UInt256) (sig : List UInt8) : Except ProtoBufFault Bool :=
  if sig = [] then .error .assertion
  else
    .ok (match env.curve.parse (key.publicKey env.curve) with
      | some pk => !(key.publicKey env.curve).isEmpty && env.ecdsaVerify pk md sig
      | none => false)

/-- `BRPaymentProtocolEncryptedMessageVerify` -/
def verifyEncrypted (msg : BRPaymentProtocolEncryptedMessage) (pubKey : BRKey) :
    Except ProtoBufFault Bool :=
  let md := env.sha256 (serialized junk (writeEncrypted env { msg with sigLen := 0 }))
  keyVerify env pubKey md ((msg.signature.getD []).take msg.sigLen)

/-- `BRPaymentProtocolEncryptedMessageDecrypt`: what it returns, and `out`
behind it. -/
def decryptEncrypted (msg : BRPaymentProtocolEncryptedMessage) (out : Option (List UInt8))
    (privKey : BRKey) : ℕ × List UInt8 :=
  if out.isNone then (if msg.msgLen < 16 then 0 else msg.msgLen - 16, [])
  else
    let keys := messageCEK env msg privKey
    let ad := associatedData (msg.ctx.isDefault encryptedStatusCodeKey) msg.statusCode msg.statusMsg
    BRChacha20Poly1305AEADDecrypt out keys.1 keys.2 ((msg.message.getD []).take msg.msgLen) ad

end EncryptedMessage

end BreadwalletCore
