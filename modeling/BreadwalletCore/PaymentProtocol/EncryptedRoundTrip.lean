import BreadwalletCore.Key.Bip32
import BreadwalletCore.PaymentProtocol.KeyAgreement

/-!
# Encrypted messages that are sent

A message that was constructed is parsed from its bytes as it was.  Its signature
is over the same fields with an empty signature, which the verification writes
again; what it encrypts is decrypted with the key that the two parties share.
-/

namespace BreadwalletCore

open ProtoBuf ByteWriter

namespace EncryptedMessage

variable {P : Type} [AddCommGroup P] {env : MessageEnv P} {junk : ℕ → UInt8}

/-! ## What is written -/

variable {args : EncryptedArgs} {receiverPK senderPK cipher : List UInt8}

/-- The message without its signature. -/
def draft (env : MessageEnv P) (args : EncryptedArgs)
    (receiverPK senderPK cipher : List UInt8) : BRPaymentProtocolEncryptedMessage where
  msgType := args.msgType
  message := some cipher
  msgLen := cipher.length
  receiverPubKey := (BRKey.setPubKey env.curve receiverPK).1
  senderPubKey := (BRKey.setPubKey env.curve senderPK).1
  nonce := args.nonce
  identifier := (newBytes args.identifier).1
  identLen := (newBytes args.identifier).2
  statusCode := args.statusCode
  statusMsg := newString args.statusMsg
  ctx := newContext (encryptedStatusMsgKey + 1)

/-- Its fields, and the signature. -/
def messageFields (args : EncryptedArgs) (receiverPK senderPK cipher sig : List UInt8) :
    List WireField :=
  ⟨encryptedMsgTypeKey, .varint args.msgType.toNat⟩ :: ⟨encryptedMessageKey, .data cipher⟩ ::
    ⟨encryptedReceiverPkKey, .data receiverPK⟩ :: ⟨encryptedSenderPkKey, .data senderPK⟩ ::
    ⟨encryptedNonceKey, .varint args.nonce.toNat⟩ :: ⟨encryptedSignatureKey, .data sig⟩ ::
    (bytesField encryptedIdentifierKey args.identifier ++
      (⟨encryptedStatusCodeKey, .varint args.statusCode.toNat⟩ ::
        textField encryptedStatusMsgKey args.statusMsg))

theorem appends_setPubKey
    (key : ℕ) {pk : List UInt8}
    (hpk : IsPubKey env.curve pk) :
    Appends (fun w => setBytes w (some ((BRKey.setPubKey env.curve pk).1.publicKey env.curve))
        ((BRKey.setPubKey env.curve pk).1.publicKey env.curve).length key)
      (WireField.encode ⟨key, .data pk⟩) := by
  rw [hpk.publicKey_setPubKey]
  exact appends_setBytes_all pk key

theorem appends_writeEncrypted
    (args : EncryptedArgs)
    (hreceiver : IsPubKey env.curve receiverPK)
    (hsender : IsPubKey env.curve senderPK)
    (cipher : List UInt8) {sig : List UInt8} {n : ℕ}
    (hn : n ≤ sig.length) :
    Appends (writeEncrypted env
        { draft env args receiverPK senderPK cipher with signature := some sig, sigLen := n })
      (WireField.encodeAll (messageFields args receiverPK senderPK cipher (sig.take n))) := by
  have hmsgType := appends_setInt args.msgType.toNat encryptedMsgTypeKey
  have hmessage := appends_setBytes_all cipher encryptedMessageKey
  have hreceiverPK := appends_setPubKey encryptedReceiverPkKey hreceiver
  have hsenderPK := appends_setPubKey encryptedSenderPkKey hsender
  have hnonce := appends_setInt args.nonce.toNat encryptedNonceKey
  have hsig := appends_setBytes sig encryptedSignatureKey hn
  have hidentifier := appends_bytesField args.identifier encryptedIdentifierKey
  have hstatusCode := appends_setInt args.statusCode.toNat encryptedStatusCodeKey
  have hstatusMsg := appends_textField args.statusMsg encryptedStatusMsgKey
  have hunknown := appends_setUnknown (newContext (encryptedStatusMsgKey + 1))
  have hall := hmsgType.comp (hmessage.comp (hreceiverPK.comp (hsenderPK.comp (hnonce.comp
    (hsig.comp (hidentifier.comp (hstatusCode.comp (hstatusMsg.comp hunknown))))))))
  rw [show (newContext (encryptedStatusMsgKey + 1)).unknown.getD [] = ([] : List UInt8) from rfl,
    List.append_nil] at hall
  simp only [messageFields, WireField.encodeAll_cons, WireField.encodeAll_append]
  exact hall

/-! ## What is read -/

theorem readPubKey_eq
    {pk : List UInt8}
    (hpk : IsPubKey env.curve pk) :
    readPubKey env (some pk) pk.length = .ok ((BRKey.setPubKey env.curve pk).1, true) := by
  rw [readPubKey, if_pos hpk.length_eq, ← hpk.setPubKey_snd]

theorem fits_messageFields
    {sig : List UInt8}
    (hlen : (WireField.encodeAll (messageFields args receiverPK senderPK cipher sig)).length <
      2 ^ 63) :
    ∀ f ∈ messageFields args receiverPK senderPK cipher sig, f.Fits := by
  intro f hf
  have hmem := hf
  simp only [messageFields, List.mem_cons, List.mem_append, bytesField, textField,
    Option.mem_toList, Option.map_eq_some_iff] at hf
  have htype := args.msgType.toNat_lt
  rcases hf with rfl | rfl | rfl | rfl | rfl | rfl | ⟨data, -, rfl⟩ | rfl | ⟨str, -, rfl⟩
  · exact fits_varint (by norm_num) (by omega)
  · exact fits_data_of_mem hlen (by norm_num) hmem
  · exact fits_data_of_mem hlen (by norm_num) hmem
  · exact fits_data_of_mem hlen (by norm_num) hmem
  · exact fits_varint (by norm_num) args.nonce.toNat_lt
  · exact fits_data_of_mem hlen (by norm_num) hmem
  · exact fits_data_of_mem hlen (by norm_num) hmem
  · exact fits_varint (by norm_num) args.statusCode.toNat_lt
  · exact fits_data_of_mem hlen (by norm_num) hmem

section Steps

variable (s : EncryptedParser) (len : ℕ)

theorem step_msgType
    (msgType : UInt32) :
    stepWire (encryptedStep env junk) len s ⟨encryptedMsgTypeKey, .varint msgType.toNat⟩ =
      .ok { s with msg := { s.msg with msgType := msgType }, gotMsgType := true } := by
  simp only [stepWire, encryptedStep, key_div_varint, UInt32.ofNat_toNat]

theorem step_message
    (data : List UInt8) :
    stepWire (encryptedStep env junk) len s ⟨encryptedMessageKey, .data data⟩ =
      .ok { s with msg := { s.msg with message := some data, msgLen := data.length } } := by
  simp only [stepWire, encryptedStep, key_div_data]
  rfl

theorem step_receiverPK
    {pk : List UInt8}
    (hpk : IsPubKey env.curve pk) :
    stepWire (encryptedStep env junk) len s ⟨encryptedReceiverPkKey, .data pk⟩ =
      .ok { s with
        msg := { s.msg with receiverPubKey := (BRKey.setPubKey env.curve pk).1 }
        gotReceiverPK := true } := by
  simp only [stepWire, encryptedStep, key_div_data, readPubKey_eq hpk]
  rfl

theorem step_senderPK
    {pk : List UInt8}
    (hpk : IsPubKey env.curve pk) :
    stepWire (encryptedStep env junk) len s ⟨encryptedSenderPkKey, .data pk⟩ =
      .ok { s with
        msg := { s.msg with senderPubKey := (BRKey.setPubKey env.curve pk).1 }
        gotSenderPK := true } := by
  simp only [stepWire, encryptedStep, key_div_data, readPubKey_eq hpk]
  rfl

theorem step_nonce
    (nonce : UInt64) :
    stepWire (encryptedStep env junk) len s ⟨encryptedNonceKey, .varint nonce.toNat⟩ =
      .ok { s with msg := { s.msg with nonce := nonce }, gotNonce := true } := by
  simp only [stepWire, encryptedStep, key_div_varint, UInt64.ofNat_toNat]

theorem step_signature
    (sig : List UInt8) :
    stepWire (encryptedStep env junk) len s ⟨encryptedSignatureKey, .data sig⟩ =
      .ok { s with msg := { s.msg with signature := some sig, sigLen := sig.length } } := by
  simp only [stepWire, encryptedStep, key_div_data]
  rfl

theorem step_identifier
    (data : List UInt8) :
    stepWire (encryptedStep env junk) len s ⟨encryptedIdentifierKey, .data data⟩ =
      .ok { s with msg := { s.msg with identifier := some data, identLen := data.length } } := by
  simp only [stepWire, encryptedStep, key_div_data]
  rfl

theorem step_statusCode
    (statusCode : UInt64) :
    stepWire (encryptedStep env junk) len s ⟨encryptedStatusCodeKey, .varint statusCode.toNat⟩ =
      .ok { s with msg := { s.msg with
        statusCode := statusCode
        ctx := s.msg.ctx.setDefault encryptedStatusCodeKey false } } := by
  simp only [stepWire, encryptedStep, key_div_varint, UInt64.ofNat_toNat]

theorem step_statusMsg
    (str : List UInt8) :
    stepWire (encryptedStep env junk) len s ⟨encryptedStatusMsgKey, .data (cString str)⟩ =
      .ok { s with msg := { s.msg with statusMsg := newString (some str) } } := by
  simp only [stepWire, encryptedStep, key_div_data]
  rfl

end Steps

/-- Reading the fields of a message in their order. -/
theorem foldlM_messageFields
    (args : EncryptedArgs)
    (hreceiver : IsPubKey env.curve receiverPK)
    (hsender : IsPubKey env.curve senderPK)
    (cipher sig : List UInt8) (len : ℕ) :
    (messageFields args receiverPK senderPK cipher sig).foldlM
        (stepWire (encryptedStep env junk) len)
        { msg := { ctx :=
            (newContext (encryptedStatusMsgKey + 1)).setDefault encryptedStatusCodeKey true } } =
      .ok ⟨{ draft env args receiverPK senderPK cipher with
          signature := some sig, sigLen := sig.length }, true, true, true, true⟩ := by
  obtain ⟨rpk, hrpk⟩ : ∃ key, key = (BRKey.setPubKey env.curve receiverPK).1 := ⟨_, rfl⟩
  obtain ⟨spk, hspk⟩ : ∃ key, key = (BRKey.setPubKey env.curve senderPK).1 := ⟨_, rfl⟩
  have hidentifier := foldlM_bytesField (stepWire (encryptedStep env junk) len)
    encryptedIdentifierKey
    (fun x => ⟨⟨args.msgType, some cipher, cipher.length, rpk, spk, args.nonce, some sig,
      sig.length, x.1, x.2, 0, none,
      (newContext (encryptedStatusMsgKey + 1)).setDefault encryptedStatusCodeKey true⟩,
      true, true, true, true⟩)
    rfl (fun data => step_identifier _ len data) args.identifier
  have hstatusMsg := foldlM_textField (stepWire (encryptedStep env junk) len)
    encryptedStatusMsgKey
    (fun x => ⟨⟨args.msgType, some cipher, cipher.length, rpk, spk, args.nonce, some sig,
      sig.length, (newBytes args.identifier).1, (newBytes args.identifier).2, args.statusCode, x,
      newContext (encryptedStatusMsgKey + 1)⟩,
      true, true, true, true⟩)
    rfl (fun str => step_statusMsg _ len str) args.statusMsg
  rw [messageFields, List.foldlM_cons, step_msgType, Machine.ok_bind, List.foldlM_cons,
    step_message, Machine.ok_bind, List.foldlM_cons, step_receiverPK _ len hreceiver,
    Machine.ok_bind, List.foldlM_cons, step_senderPK _ len hsender, Machine.ok_bind,
    List.foldlM_cons, step_nonce, Machine.ok_bind, List.foldlM_cons, step_signature,
    Machine.ok_bind, List.foldlM_append, ← hrpk, ← hspk]
  refine (congrArg (fun x => x >>= _) hidentifier).trans ?_
  rw [Machine.ok_bind, List.foldlM_cons, step_statusCode, Machine.ok_bind]
  refine hstatusMsg.trans ?_
  rw [draft, hrpk, hspk]

/-- A message is parsed from its bytes as it was. -/
theorem parseEncrypted_serialized
    (args : EncryptedArgs)
    (hreceiver : IsPubKey env.curve receiverPK)
    (hsender : IsPubKey env.curve senderPK)
    {cipher sig buf : List UInt8}
    (hbuf : buf = serialized junk (writeEncrypted env
      { draft env args receiverPK senderPK cipher with
        signature := some sig, sigLen := sig.length }))
    (hlen : buf.length < 2 ^ 63) :
    parseEncrypted env junk (some buf) buf.length =
      .ok (some { draft env args receiverPK senderPK cipher with
        signature := some sig, sigLen := sig.length }) := by
  have hbytes : buf =
      WireField.encodeAll (messageFields args receiverPK senderPK cipher sig) := by
    have h := appends_writeEncrypted args hreceiver hsender cipher (le_refl sig.length)
    rw [List.take_length] at h
    rw [hbuf, serialized_eq junk h]
  rw [hbytes] at hlen ⊢
  rw [parseEncrypted, readMessage, if_neg (by simp),
    readFields_encodeAll _ (fits_messageFields hlen) (by omega),
    foldlM_messageFields args hreceiver hsender, Machine.ok_bind]
  rfl

/-! ## What is encrypted and signed -/

/-- What is encrypted is decrypted with the same key, nonce and associated data. -/
def AeadLaw (message : List UInt8) : Prop :=
  ∀ key32 nonce12 ad out out' : List UInt8,
    message.length + 16 ≤ out.length → message.length ≤ out'.length →
    let r := BRChacha20Poly1305AEADEncrypt (some out) key32 nonce12 message ad
    r.1 = message.length + 16 ∧
      BRChacha20Poly1305AEADDecrypt (some out') key32 nonce12 (r.2.take r.1) ad =
        (message.length, message ++ out'.drop message.length)

/-- The law holds of every message whose blocks can be counted. -/
theorem aeadLaw_of_length
    {message : List UInt8}
    (hlen : message.length / 64 < UINT32_MAX) :
    AeadLaw message := by
  intro key32 nonce12 ad out out' hout hout' r
  have hr : r = _ := encrypt_eq hout hlen
  refine ⟨by rw [hr], ?_⟩
  rw [hr]
  dsimp only
  rw [List.take_left' (length_sealed ..), decrypt_sealed hout' hlen]

/-- A signature with a secret is verified with the point of the secret. -/
def EcdsaLaw (env : MessageEnv P) : Prop :=
  ∀ secret md, env.curve.seckeyVerify secret = true →
    env.ecdsaSign secret md ≠ [] ∧
      env.ecdsaVerify (scalarValue secret • env.curve.generator) md
        (env.ecdsaSign secret md) = true

theorem length_encrypt
    (out key32 nonce12 data ad : List UInt8) :
    (BRChacha20Poly1305AEADEncrypt (some out) key32 nonce12 data ad).2.length = out.length := by
  rw [BRChacha20Poly1305AEADEncrypt]
  dsimp only
  split
  · rfl
  · simp only [List.length_append, length_BRChacha20, Words4.length_bytes, List.length_drop]
    omega

/-- The key that signs. -/
def signer (env : MessageEnv P) (receiverKey senderKey : BRKey) : BRKey :=
  if env.curve.seckeyVerify receiverKey.secret then receiverKey else senderKey

/-- What the constructor encrypts with. -/
def encryptionKeys (env : MessageEnv P) (args : EncryptedArgs) (receiverKey senderKey : BRKey) :
    List UInt8 × List UInt8 :=
  messageCEK env (startMessage env args receiverKey senderKey) (signer env receiverKey senderKey)

def ciphertext (junk : ℕ → UInt8) (args : EncryptedArgs) (keys : List UInt8 × List UInt8) :
    List UInt8 :=
  let out := BRChacha20Poly1305AEADEncrypt (some (newBuf junk (args.message.length + 16)))
    keys.1 keys.2 args.message (associatedData false args.statusCode args.statusMsg)
  out.2.take out.1

theorem length_ciphertext
    (junk : ℕ → UInt8)
    (haead : AeadLaw args.message)
    (keys : List UInt8 × List UInt8) :
    (ciphertext junk args keys).length = args.message.length + 16 := by
  have hroom : (newBuf junk (args.message.length + 16)).length = args.message.length + 16 :=
    length_newBuf _ _
  have hlaw := haead keys.1 keys.2 (associatedData false args.statusCode args.statusMsg) _
    args.message hroom.ge le_rfl
  rw [ciphertext, hlaw.1, List.length_take, length_encrypt, hroom, Nat.min_self]

theorem decrypt_ciphertext
    (junk : ℕ → UInt8)
    (haead : AeadLaw args.message)
    (keys : List UInt8 × List UInt8) {out : List UInt8}
    (hout : args.message.length ≤ out.length) :
    BRChacha20Poly1305AEADDecrypt (some out) keys.1 keys.2 (ciphertext junk args keys)
        (associatedData false args.statusCode args.statusMsg) =
      (args.message.length, args.message ++ out.drop args.message.length) :=
  (haead keys.1 keys.2 (associatedData false args.statusCode args.statusMsg) _ out
    (length_newBuf junk _).ge hout).2

/-- What is signed, and verified: the message with an empty signature. -/
def digest (env : MessageEnv P) (args : EncryptedArgs)
    (receiverPK senderPK cipher : List UInt8) : UInt256 :=
  env.sha256 (WireField.encodeAll (messageFields args receiverPK senderPK cipher []))

theorem sha256_serialized
    (junk : ℕ → UInt8) (args : EncryptedArgs)
    (hreceiver : IsPubKey env.curve receiverPK)
    (hsender : IsPubKey env.curve senderPK)
    (cipher sig : List UInt8) :
    env.sha256 (serialized junk (writeEncrypted env
        { draft env args receiverPK senderPK cipher with signature := some sig, sigLen := 0 })) =
      digest env args receiverPK senderPK cipher := by
  have h := appends_writeEncrypted args hreceiver hsender cipher (Nat.zero_le sig.length)
  rw [List.take_zero] at h
  rw [serialized_eq junk h, digest]

/-- What the constructor makes. -/
def constructed (env : MessageEnv P) (junk : ℕ → UInt8) (args : EncryptedArgs)
    (receiverKey senderKey : BRKey) : BRPaymentProtocolEncryptedMessage :=
  let receiverPK := receiverKey.publicKey env.curve
  let senderPK := senderKey.publicKey env.curve
  let cipher := ciphertext junk args (encryptionKeys env args receiverKey senderKey)
  let sig := env.ecdsaSign (signer env receiverKey senderKey).secret
    (digest env args receiverPK senderPK cipher)
  { draft env args receiverPK senderPK cipher with signature := some sig, sigLen := sig.length }

/-- Without a buffer the decryption finds the length of the message. -/
theorem decrypt_none
    (junk : ℕ → UInt8)
    (haead : AeadLaw args.message)
    (receiverKey senderKey privKey : BRKey) :
    decryptEncrypted env (constructed env junk args receiverKey senderKey) none privKey =
      (args.message.length, []) := by
  have hmsgLen : (constructed env junk args receiverKey senderKey).msgLen =
      args.message.length + 16 :=
    length_ciphertext junk haead (encryptionKeys env args receiverKey senderKey)
  rw [decryptEncrypted, if_pos Option.isNone_none, hmsgLen, if_neg (by omega),
    Nat.add_sub_cancel]

theorem newEncrypted_eq
    (junk : ℕ → UInt8) (args : EncryptedArgs)
    {receiverKey senderKey : BRKey}
    (hreceiver : IsPubKey env.curve (receiverKey.publicKey env.curve))
    (hsender : IsPubKey env.curve (senderKey.publicKey env.curve))
    (hvalid : env.curve.seckeyVerify (signer env receiverKey senderKey).secret = true) :
    newEncrypted env junk args receiverKey senderKey =
      .ok (some (constructed env junk args receiverKey senderKey)) := by
  have hassert : ¬ (!env.curve.seckeyVerify receiverKey.secret &&
      !env.curve.seckeyVerify senderKey.secret) = true := by
    intro h
    rw [Bool.and_eq_true, Bool.not_eq_true', Bool.not_eq_true'] at h
    rw [signer, h.1, if_neg Bool.false_ne_true, h.2] at hvalid
    cases hvalid
  have hdigest := sha256_serialized junk args hreceiver hsender
    (ciphertext junk args (encryptionKeys env args receiverKey senderKey)) [0]
  rw [newEncrypted, if_neg hassert, constructed, ← hdigest]
  rfl

/-! ## Both parties -/

theorem associatedData_newString
    (isDefault : Bool) (statusCode : UInt64) (statusMsg : Option (List UInt8)) :
    associatedData isDefault statusCode (newString statusMsg) =
      associatedData isDefault statusCode statusMsg := by
  have htext : cString ((newString statusMsg).getD []) = cString (statusMsg.getD []) := by
    cases statusMsg with
    | none =>
        rfl
    | some str =>
        exact cString_terminated str
  rw [associatedData, associatedData, htext]

section Parties

variable {receiver sender receiverKey senderKey : BRKey}

/-- The arguments that the constructor takes for two private keys: one of them is
private, and the other need not be. -/
structure Parties (env : MessageEnv P) (receiver sender receiverKey senderKey : BRKey) :
    Prop where
  private_receiver : IsPrivate env receiver
  private_sender : IsPrivate env sender
  receiver_or_public : receiverKey = receiver ∨ IsPublicOf env receiverKey receiver
  sender_or_public : senderKey = sender ∨ IsPublicOf env senderKey sender
  onePrivate : receiverKey = receiver ∨ senderKey = sender

theorem publicKey_of_party
    {key pub : BRKey}
    (h : pub = key ∨ IsPublicOf env pub key) :
    pub.publicKey env.curve = key.publicKey env.curve := by
  rcases h with rfl | h
  · rfl
  · exact h.publicKey

namespace Parties

theorem signer_eq
    (h : Parties env receiver sender receiverKey senderKey) :
    signer env receiverKey senderKey = receiver ∨ signer env receiverKey senderKey = sender := by
  rcases h.receiver_or_public with rfl | hpub
  · rw [signer, if_pos h.private_receiver.valid]
    exact Or.inl rfl
  · rw [signer, hpub.invalid, if_neg Bool.false_ne_true]
    refine Or.inr (h.onePrivate.resolve_left (fun heq => ?_))
    have hvalid := h.private_receiver.valid
    rw [← heq, hpub.invalid] at hvalid
    cases hvalid

theorem signer_isPrivate
    (h : Parties env receiver sender receiverKey senderKey) :
    IsPrivate env (signer env receiverKey senderKey) := by
  rcases h.signer_eq with heq | heq
  · rw [heq]
    exact h.private_receiver
  · rw [heq]
    exact h.private_sender

theorem isPubKey_receiver
    (h : Parties env receiver sender receiverKey senderKey) :
    IsPubKey env.curve (receiverKey.publicKey env.curve) := by
  rw [publicKey_of_party h.receiver_or_public]
  exact h.private_receiver.isPubKey

theorem isPubKey_sender
    (h : Parties env receiver sender receiverKey senderKey) :
    IsPubKey env.curve (senderKey.publicKey env.curve) := by
  rw [publicKey_of_party h.sender_or_public]
  exact h.private_sender.isPubKey

/-- The constructor and both parties use the same keys. -/
theorem messageCEK_constructed
    (h : Parties env receiver sender receiverKey senderKey)
    (hformat : FormatLaw env.curve)
    (junk : ℕ → UInt8) (args : EncryptedArgs)
    {privKey : BRKey}
    (hprivKey : privKey = receiver ∨ privKey = sender) :
    messageCEK env (constructed env junk args receiverKey senderKey) privKey =
      encryptionKeys env args receiverKey senderKey := by
  have hreceiverPub := h.isPubKey_receiver.publicKey_setPubKey.trans
    (publicKey_of_party h.receiver_or_public)
  have hsenderPub := h.isPubKey_sender.publicKey_setPubKey.trans (publicKey_of_party h.sender_or_public)
  rw [encryptionKeys,
    messageCEK_eq hformat h.private_receiver h.private_sender hreceiverPub hsenderPub hprivKey,
    messageCEK_eq hformat h.private_receiver h.private_sender hreceiverPub hsenderPub h.signer_eq]
  rfl

theorem decrypt_constructed
    (h : Parties env receiver sender receiverKey senderKey)
    (hformat : FormatLaw env.curve)
    (junk : ℕ → UInt8)
    (haead : AeadLaw args.message)
    {privKey : BRKey}
    (hprivKey : privKey = receiver ∨ privKey = sender) {out : List UInt8}
    (hout : args.message.length ≤ out.length) :
    decryptEncrypted env (constructed env junk args receiverKey senderKey) (some out) privKey =
      (args.message.length, args.message ++ out.drop args.message.length) := by
  have hdecrypt := decrypt_ciphertext junk haead
    (encryptionKeys env args receiverKey senderKey) hout
  have hcek := h.messageCEK_constructed hformat junk args hprivKey
  rw [decryptEncrypted, if_neg (by simp), hcek]
  rw [← associatedData_newString] at hdecrypt
  rw [← hdecrypt, constructed, draft]
  dsimp only
  rw [Option.getD_some, List.take_length]
  rfl

theorem verify_constructed
    (h : Parties env receiver sender receiverKey senderKey)
    (hecdsa : EcdsaLaw env)
    (junk : ℕ → UInt8) (args : EncryptedArgs)
    {pubKey : BRKey}
    (hpubKey : pubKey.publicKey env.curve =
      (signer env receiverKey senderKey).publicKey env.curve) :
    verifyEncrypted env junk (constructed env junk args receiverKey senderKey) pubKey =
      .ok true := by
  have hsigner := h.signer_isPrivate
  obtain ⟨hne, hverify⟩ := hecdsa (signer env receiverKey senderKey).secret
    (digest env args (receiverKey.publicKey env.curve) (senderKey.publicKey env.curve)
      (ciphertext junk args (encryptionKeys env args receiverKey senderKey))) hsigner.valid
  have hparse := env.curve.parse_serialize (signer env receiverKey senderKey).compressed _
    (Secp256k1.point_ne_zero hsigner.valid)
  have hpk := hsigner.isPubKey
  rw [hsigner.publicKey] at hpk hpubKey
  rw [verifyEncrypted, constructed]
  dsimp only
  rw [sha256_serialized junk args h.isPubKey_receiver h.isPubKey_sender, Option.getD_some,
    List.take_length, keyVerify, if_neg hne, hpubKey, hparse]
  dsimp only
  rw [hverify, Bool.and_true]
  cases hserialized : env.curve.serialize (signer env receiverKey senderKey).compressed
    (scalarValue (signer env receiverKey senderKey).secret • env.curve.generator) with
  | nil =>
      rw [hserialized] at hpk
      exact absurd rfl (hpk.ne_zeros 0)
  | cons b l =>
      rfl

end Parties

/-- **Encrypted messages.**  A message is made for the two parties, and what is
parsed from its bytes is the same; with the private key of either of them it is
decrypted, and its signature is verified with the public key of the signer. -/
theorem encryptedMessage_roundTrip
    (junk : ℕ → UInt8)
    (hformat : FormatLaw env.curve)
    (hecdsa : EcdsaLaw env)
    (haead : AeadLaw args.message)
    (h : Parties env receiver sender receiverKey senderKey)
    (hlen : ∀ msg, newEncrypted env junk args receiverKey senderKey = .ok (some msg) →
      (serialized junk (writeEncrypted env msg)).length < 2 ^ 63) :
    ∃ msg, newEncrypted env junk args receiverKey senderKey = .ok (some msg) ∧
      parseEncrypted env junk (some (serialized junk (writeEncrypted env msg)))
        (serialized junk (writeEncrypted env msg)).length = .ok (some msg) ∧
      (∀ privKey, privKey = receiver ∨ privKey = sender →
        decryptEncrypted env msg none privKey = (args.message.length, []) ∧
        ∀ out, args.message.length ≤ out.length →
          decryptEncrypted env msg (some out) privKey =
            (args.message.length, args.message ++ out.drop args.message.length)) ∧
      ∀ pubKey : BRKey, pubKey.publicKey env.curve =
          (signer env receiverKey senderKey).publicKey env.curve →
        verifyEncrypted env junk msg pubKey = .ok true := by
  have hnew := newEncrypted_eq junk args h.isPubKey_receiver h.isPubKey_sender
    h.signer_isPrivate.valid
  have hparse := parseEncrypted_serialized args h.isPubKey_receiver h.isPubKey_sender rfl
    (hlen _ hnew)
  refine ⟨_, hnew, hparse, fun privKey hprivKey => ⟨?_, fun out hout => ?_⟩,
    fun pubKey hpubKey => ?_⟩
  · exact decrypt_none junk haead receiverKey senderKey privKey
  · exact h.decrypt_constructed hformat junk haead hprivKey hout
  · exact h.verify_constructed hecdsa junk args hpubKey

end Parties

/-! ## A message in the group -/

/-- Signatures that are the point and the digest. -/
def groupEnv : MessageEnv (ZMod Bip32.groupOrder) where
  curve := Bip32.groupCurve
  ecdsaSign secret md :=
    0x30 :: (Bip32.groupCurve.serialize true (scalarValue secret • Bip32.groupCurve.generator) ++
      hashBytes md)
  ecdsaVerify p md sig := sig = 0x30 :: (Bip32.groupCurve.serialize true p ++ hashBytes md)
  sha256 data := BitVec.ofNat 256 data.length
  sha512 data := data ++ data
  hmacSHA256 K V := (V ++ K ++ List.replicate 32 0).take 32

theorem formatLaw_groupCurve : FormatLaw Bip32.groupCurve := by
  intro p _
  have hne : NeZero Bip32.groupOrder := ⟨by decide⟩
  have horder : Bip32.groupOrder < 256 ^ 32 := by decide
  have hlt : p.val < 256 ^ 32 := (ZMod.val_lt p).trans horder
  obtain ⟨low, hlow⟩ : ∃ low, low = LittleEndian.bytes 32 p.val := ⟨_, rfl⟩
  have hlen : low.length = 32 := by
    rw [hlow, LittleEndian.length_bytes]
  have hvalue : LittleEndian.value (low ++ List.replicate 32 0) = p.val := by
    rw [LittleEndian.value_append, LittleEndian.value_replicate_zero, hlow,
      LittleEndian.value_bytes hlt, Nat.mul_zero, Nat.add_zero]
  have hbytes : LittleEndian.bytes 64 p.val = low ++ List.replicate 32 0 := by
    have h := LittleEndian.bytes_value (low ++ List.replicate 32 0)
    rwa [hvalue, List.length_append, hlen, List.length_replicate] at h
  change compressPoint (4 :: LittleEndian.bytes 64 p.val) = 2 :: LittleEndian.bytes 32 p.val
  rw [hbytes, ← hlow, compressPoint]
  have hlast : ((4 : UInt8) :: (low ++ List.replicate 32 0)).getD 64 0 = 0 := by
    rw [List.getD_cons_succ, List.getD_append_right _ _ _ _ (by omega), hlen]
    rfl
  rw [if_pos (by simp [hlen]), hlast, if_neg (by decide), List.drop_succ_cons, List.drop_zero,
    List.take_succ_cons, List.take_left' hlen]

theorem ecdsaLaw_groupEnv : EcdsaLaw groupEnv := by
  intro secret md _
  simp only [groupEnv, ne_eq, reduceCtorEq, not_false_eq_true, decide_true, and_self]

/-- A receiver with an uncompressed key, and a sender with a compressed one. -/
def groupReceiver : BRKey :=
  (BRKey.setSecret groupEnv.curve (scalarBytes 3) false).1

def groupSender : BRKey :=
  (BRKey.setSecret groupEnv.curve (scalarBytes 5) true).1

def groupArgs : EncryptedArgs where
  msgType := 2
  message := [0x0a, 0x00]
  nonce := 7
  identifier := none
  statusCode := 1
  statusMsg := some [0x6f, 0x6b]

theorem parties_group :
    Parties groupEnv groupReceiver groupSender groupReceiver
      (BRKey.setPubKey groupEnv.curve (groupSender.publicKey groupEnv.curve)).1 := by
  have hthree : groupEnv.curve.seckeyVerify (scalarBytes 3) = true := by
    decide +kernel
  have hfive : groupEnv.curve.seckeyVerify (scalarBytes 5) = true := by
    decide +kernel
  have hreceiver : IsPrivate groupEnv groupReceiver := isPrivate_setSecret hthree false
  have hsender : IsPrivate groupEnv groupSender := isPrivate_setSecret hfive true
  exact ⟨hreceiver, hsender, Or.inl rfl, Or.inr (isPublicOf_setPubKey hsender), Or.inl rfl⟩

/-- The receiver writes to the sender, who reads it. -/
theorem encryptedMessage_roundTrip_group :
    ∃ msg, newEncrypted groupEnv (fun _ => 0) groupArgs groupReceiver
        (BRKey.setPubKey groupEnv.curve (groupSender.publicKey groupEnv.curve)).1 =
          .ok (some msg) ∧
      parseEncrypted groupEnv (fun _ => 0)
        (some (serialized (fun _ => 0) (writeEncrypted groupEnv msg)))
        (serialized (fun _ => 0) (writeEncrypted groupEnv msg)).length = .ok (some msg) ∧
      decryptEncrypted groupEnv msg (some [0xff, 0xff]) groupSender = (2, [0x0a, 0x00]) ∧
      verifyEncrypted groupEnv (fun _ => 0) msg groupReceiver = .ok true := by
  have hlen : ∀ msg, newEncrypted groupEnv (fun _ => 0) groupArgs groupReceiver
      (BRKey.setPubKey groupEnv.curve (groupSender.publicKey groupEnv.curve)).1 =
        .ok (some msg) →
      (serialized (fun _ => 0) (writeEncrypted groupEnv msg)).length < 2 ^ 63 := by
    intro msg hmsg
    have hshort : ((newEncrypted groupEnv (fun _ => 0) groupArgs groupReceiver
        (BRKey.setPubKey groupEnv.curve (groupSender.publicKey groupEnv.curve)).1).toOption.join.all
          (fun msg => (serialized (fun _ => 0) (writeEncrypted groupEnv msg)).length < 2 ^ 63)) =
        true := by
      decide +kernel
    rw [hmsg] at hshort
    exact of_decide_eq_true hshort
  obtain ⟨msg, hnew, hparse, hdecrypt, hverify⟩ :=
    encryptedMessage_roundTrip (fun _ => 0) formatLaw_groupCurve ecdsaLaw_groupEnv
      (aeadLaw_of_length (by decide)) parties_group hlen
  exact ⟨msg, hnew, hparse, (hdecrypt groupSender (Or.inr rfl)).2 [0xff, 0xff] (by decide),
    hverify groupReceiver rfl⟩

end EncryptedMessage

end BreadwalletCore
