import BreadwalletCore.PaymentProtocol.Reserialized
import BreadwalletCore.Transaction.Inputs

/-!
# The digest of a request

`BRPaymentProtocolRequestDigest` serializes a request with an empty signature and
hashes the bytes.  They are what the merchant signed as long as the request is
serialized as it was received.
-/

namespace BreadwalletCore

open ProtoBuf ByteWriter
open RawTransaction (noAddressCodec)

/-- `"x509+sha256"` -/
def x509Sha256 : List UInt8 :=
  [0x78, 0x35, 0x30, 0x39, 0x2b, 0x73, 0x68, 0x61, 0x32, 0x35, 0x36]

/-- `"x509+sha1"` -/
def x509Sha1 : List UInt8 :=
  [0x78, 0x35, 0x30, 0x39, 0x2b, 0x73, 0x68, 0x61, 0x31]

/-- The hash of a PKI type; other types have none. -/
def hashFor (sha256 sha1 : List UInt8 → List UInt8) (pkiType : Option (List UInt8))
    (buf : List UInt8) : Option (List UInt8) :=
  if pkiType.map cString = some x509Sha256 then some (sha256 buf)
  else if pkiType.map cString = some x509Sha1 then some (sha1 buf)
  else none

/-- `BRPaymentProtocolRequestDigest`: what it writes to a digest with room for it. -/
def requestDigest (sha256 sha1 : List UInt8 → List UInt8) (junk : ℕ → UInt8)
    (req : BRPaymentProtocolRequest) : Option (List UInt8) :=
  hashFor sha256 sha1 req.pkiType (serialized junk (writeRequest junk { req with sigLen := 0 }))

section Digest

variable {codec : ScriptCodec} {junk : ℕ → UInt8}

namespace RequestMessage

/-- What is parsed of a request, given the details and what is kept of the unknown
fields. -/
def parsed (m : RequestMessage) (details : BRPaymentProtocolDetails)
    (array : Option (List UInt8)) : BRPaymentProtocolRequest where
  version := m.version.getD 1
  pkiType := some (m.pkiType.getD nonePki ++ [0])
  pkiData := m.pkiData
  pkiDataLen := (m.pkiData.getD []).length
  details := some details
  signature := m.signature
  sigLen := (m.signature.getD []).length
  ctx :=
    { defaults := [false, m.version.isNone, m.pkiType.isNone, false, false, false]
      unknown := array }

/-- The same in front of the end of the parser. -/
def read (m : RequestMessage) (details : BRPaymentProtocolDetails)
    (array : Option (List UInt8)) : BRPaymentProtocolRequest where
  version := m.version.getD 1
  pkiType := keptText m.pkiType
  pkiData := m.pkiData
  pkiDataLen := (m.pkiData.getD []).length
  details := some details
  signature := m.signature
  sigLen := (m.signature.getD []).length
  ctx :=
    { defaults := [false, m.version.isNone, false, false, false, false]
      unknown := array }

theorem finishRequest_read
    (m : RequestMessage) (details : BRPaymentProtocolDetails) (array : Option (List UInt8)) :
    finishRequest (m.read details array) = some (m.parsed details array) := by
  obtain ⟨_, pkiType, _, _, _, _⟩ := m
  cases pkiType with
  | none =>
      rfl
  | some str =>
      rfl

theorem version_lt
    (version : Option UInt32) :
    ∀ v ∈ version.map UInt32.toNat, v < 2 ^ 64 := by
  intro v hv
  obtain ⟨x, -, rfl⟩ := Option.mem_map.mp hv
  have hx := x.toNat_lt
  omega

theorem knownField_known
    (m : RequestMessage) :
    ∀ f ∈ m.known, KnownField f := by
  simp only [known, List.forall_mem_append, List.forall_mem_cons]
  exact ⟨knownField_intField (by norm_num) (version_lt _),
    knownField_bytesField (by norm_num) _, knownField_bytesField (by norm_num) _,
    knownField_data (by norm_num) _, knownField_bytesField (by norm_num) _⟩

theorem requestStep_unknown
    (codec : ScriptCodec) (junk : ℕ → UInt8) {f : WireField}
    (hfits : f.Fits)
    (hbehind : requestSignatureKey < f.number)
    (m : RequestMessage) (details : BRPaymentProtocolDetails) (array : Option (List UInt8))
    (i : ℕ) (data : Option (List UInt8)) (dataLen : ℕ) :
    requestStep codec junk (m.read details array) f.key i data dataLen =
      (keepField junk array f.key i data dataLen).map (m.read details) := by
  obtain ⟨k, hk⟩ : ∃ k, f.number = k + 6 := ⟨f.number - 6, by
    change 5 < f.number at hbehind
    omega⟩
  rw [requestStep, key_div_eight hfits, hk, keepField]
  change (do
    let ctx ← (do
      let unknown ← ProtoBuf.unknown junk array f.key i data dataLen
      return { (m.read details array).ctx with unknown := some unknown })
    return { m.read details array with ctx := ctx }) = _
  cases ProtoBuf.unknown junk array f.key i data dataLen with
  | error e =>
      rfl
  | ok unknown =>
      rfl

/-- The parser's loop over the known fields. -/
theorem foldlM_known
    (m : RequestMessage) (len : ℕ) :
    m.known.foldlM (stepWire (requestStep codec junk) len)
        { version := 1
          ctx := (newContext (requestSignatureKey + 1)).setDefault requestVersionKey true } =
      (parseDetails codec junk (some m.details.encode) m.details.encode.length).map
        (fun details => m.read details none) := by
  have hversion := foldlM_intField UInt32.toNat (stepWire (requestStep codec junk) len)
    requestVersionKey
    (fun x => ⟨x.getD 1, none, none, 0, none, none, 0,
      { defaults := [false, x.isNone, false, false, false, false], unknown := none }⟩)
    rfl (fun v => by
      simp only [stepWire, requestStep, key_div_varint, UInt32.ofNat_toNat]
      rfl) m.version
  have hpkiType := foldlM_dataField (stepWire (requestStep codec junk) len) requestPkiTypeKey
    (fun x => ⟨m.version.getD 1, keptText x, none, 0, none, none, 0,
      { defaults := [false, m.version.isNone, false, false, false, false], unknown := none }⟩)
    rfl (fun data => by simp only [stepWire, requestStep, key_div_data]; rfl) m.pkiType
  have hpkiData := foldlM_dataField (stepWire (requestStep codec junk) len) requestPkiDataKey
    (fun x => ⟨m.version.getD 1, keptText m.pkiType, x, (x.getD []).length, none, none, 0,
      { defaults := [false, m.version.isNone, false, false, false, false], unknown := none }⟩)
    rfl (fun data => by simp only [stepWire, requestStep, key_div_data]; rfl) m.pkiData
  have hsignature := fun details => foldlM_dataField (stepWire (requestStep codec junk) len)
    requestSignatureKey
    (fun x => { m.read details none with signature := x, sigLen := (x.getD []).length })
    rfl (fun data => by simp only [stepWire, requestStep, key_div_data]; rfl) m.signature
  rw [known, List.foldlM_append]
  refine (congrArg (· >>= _) hversion).trans ?_
  rw [Machine.ok_bind, List.foldlM_append]
  refine (congrArg (· >>= _) hpkiType).trans ?_
  rw [Machine.ok_bind, List.foldlM_append]
  refine (congrArg (· >>= _) hpkiData).trans ?_
  rw [Machine.ok_bind, List.foldlM_cons]
  simp only [stepWire, requestStep, key_div_data]
  cases parseDetails codec junk (some m.details.encode) m.details.encode.length with
  | error e =>
      rfl
  | ok details =>
      exact hsignature details

/-- The parser on a request. -/
theorem parseRequest_encode_iff
    {m : RequestMessage} {req : BRPaymentProtocolRequest}
    (hm : m.Canonical)
    (hlen : m.encode.length < 2 ^ 63) :
    parseRequest codec junk (some m.encode) m.encode.length = .ok (some req) ↔
      ∃ details array,
        parseDetails codec junk (some m.details.encode) m.details.encode.length = .ok details ∧
        keepFields junk m.encode.length m.unknown = .ok array ∧
        req = m.parsed details array := by
  have hfits := fits_of_parts m.knownField_known hm.unknown hlen
  have hunknown := fun details => foldlM_unknown m.encode.length (m.read details)
    (fun f hf array i data dataLen => requestStep_unknown codec junk
      (hm.unknown.fits f hf) (hm.unknown.behind f hf) m details array i data dataLen) none
  have hread : parseRequest codec junk (some m.encode) m.encode.length =
      ((parseDetails codec junk (some m.details.encode) m.details.encode.length).map
          (fun details => m.read details none)) >>= fun req =>
        (m.unknown.foldlM (stepWire (requestStep codec junk) m.encode.length) req).map
          finishRequest := by
    rw [← foldlM_known m m.encode.length, parseRequest, readMessage]
    change (do
      let req ← readFields (requestStep codec junk) (some (WireField.encodeAll
        (m.known ++ m.unknown))) (WireField.encodeAll (m.known ++ m.unknown)).length
          { version := 1
            ctx := (newContext (requestSignatureKey + 1)).setDefault requestVersionKey true }
      return finishRequest req) = _
    rw [readFields_encodeAll _ hfits (by rw [encode] at hlen; omega), List.foldlM_append, ← encode]
    cases m.known.foldlM (stepWire (requestStep codec junk) m.encode.length)
        { version := 1
          ctx := (newContext (requestSignatureKey + 1)).setDefault requestVersionKey true } with
    | error e =>
        rfl
    | ok req =>
        rw [Machine.ok_bind, Machine.ok_bind]
        cases m.unknown.foldlM (stepWire (requestStep codec junk) m.encode.length) req <;> rfl
  rw [hread]
  cases hdetails : parseDetails codec junk (some m.details.encode) m.details.encode.length with
  | error e =>
      constructor
      · intro h
        cases h
      · rintro ⟨details, array, hparse, -⟩
        cases hparse
  | ok details =>
      change (m.unknown.foldlM (stepWire (requestStep codec junk) m.encode.length)
        (m.read details none)).map finishRequest = _ ↔ _
      rw [hunknown details, ← keepFields]
      cases hkeep : keepFields junk m.encode.length m.unknown with
      | error e =>
          constructor
          · intro h
            cases h
          · rintro ⟨details', array, -, harray, -⟩
            cases harray
      | ok array =>
          change Except.ok (finishRequest (m.read details array)) = _ ↔ _
          rw [finishRequest_read]
          constructor
          · intro h
            cases h
            exact ⟨details, array, rfl, rfl, rfl⟩
          · rintro ⟨details', array', hparse, harray, rfl⟩
            cases hparse
            cases harray
            rfl

/-- The known fields as they are written, with the first `n` bytes of the
signature. -/
def rewritten (junk : ℕ → UInt8) (m : RequestMessage) (details : BRPaymentProtocolDetails)
    (n : ℕ) : List WireField :=
  intField requestVersionKey (m.version.map UInt32.toNat) ++
    (textField requestPkiTypeKey m.pkiType ++ (bytesField requestPkiDataKey m.pkiData ++
      (⟨requestDetailsKey, .data (serialized junk (writeDetails junk details))⟩ ::
        bytesField requestSignatureKey (m.signature.map (List.take n)))))

theorem appends_signature
    (data : Option (List UInt8)) (key : ℕ) {n : ℕ}
    (hn : n ≤ (data.getD []).length) :
    Appends (fun w => if data.isSome then setBytes w data n key else w)
      (WireField.encodeAll (bytesField key (data.map (List.take n)))) := by
  cases data with
  | none =>
      exact appends_id
  | some data =>
      rw [bytesField, Option.map_some, Option.map_some, Option.toList_some, encodeAll_singleton]
      exact appends_setBytes data key hn

/-- What is written of a request that was parsed. -/
theorem appends_writeRequest_parsed
    (m : RequestMessage) {details : BRPaymentProtocolDetails} (array : Option (List UInt8)) {n : ℕ}
    (hdetails : Appends (writeDetails junk details) (serialized junk (writeDetails junk details)))
    (hn : n ≤ (m.signature.getD []).length) :
    Appends (writeRequest junk { m.parsed details array with sigLen := n })
      (WireField.encodeAll (m.rewritten junk details n) ++ array.getD []) := by
  have hversion := appends_intField requestVersionKey (m.version.map UInt32.toNat)
  have hpkiType := appends_defaultText m.pkiType nonePki requestPkiTypeKey
  have hpkiData := appends_optionalBytes m.pkiData requestPkiDataKey
  have hmessage := appends_setMessage junk 0 requestDetailsKey hdetails
  have hsignature := appends_signature m.signature requestSignatureKey hn
  have hunknown := appends_setUnknown (m.parsed details array).ctx
  have hwrite := (hversion.comp (hpkiType.comp (hpkiData.comp (hmessage.comp hsignature)))).comp
    hunknown
  rw [rewritten, WireField.encodeAll_append, WireField.encodeAll_append,
    WireField.encodeAll_append, WireField.encodeAll_cons]
  obtain ⟨version, pkiType, pkiData, _, signature, unknown⟩ := m
  cases version with
  | none =>
      exact hwrite
  | some version =>
      exact hwrite

/-- The request with an empty signature. -/
def unsigned (m : RequestMessage) : RequestMessage :=
  { m with signature := m.signature.map (fun _ => []) }

theorem length_details
    (m : RequestMessage) :
    m.details.encode.length ≤ m.encode.length := by
  have hmem : (⟨requestDetailsKey, .data m.details.encode⟩ : WireField) ∈ m.known ++ m.unknown := by
    simp [known]
  have hle := WireField.length_encode_le hmem
  have hdata := WireField.length_data_le requestDetailsKey m.details.encode
  rw [encode]
  omega

theorem take_signature
    (signature : Option (List UInt8)) :
    signature.map (List.take (signature.getD []).length) = signature := by
  cases signature with
  | none =>
      rfl
  | some data =>
      exact congrArg some List.take_length

/-- The known fields are written as they were read if the PKI type and the details
are. -/
theorem rewritten_eq_iff
    (m : RequestMessage) (details : BRPaymentProtocolDetails) :
    m.rewritten junk details (m.signature.getD []).length = m.known ↔
      TextSurvives m.pkiType ∧
        serialized junk (writeDetails junk details) = m.details.encode := by
  rw [rewritten, known, take_signature, ← textField_eq_iff requestPkiTypeKey]
  constructor
  · intro h
    obtain ⟨-, h⟩ := List.append_inj h rfl
    obtain ⟨hpkiType, h⟩ := List.append_inj h (length_textField _ _)
    obtain ⟨-, h⟩ := List.append_inj h rfl
    have hvalue := congrArg WireField.value (List.cons.inj h).1
    exact ⟨hpkiType, WireValue.data.inj hvalue⟩
  · rintro ⟨hpkiType, hdetails⟩
    rw [hpkiType, hdetails]

variable (codec junk) in
/-- A request is parsed and written as it was, and the bytes of its digest are those
with an empty signature. -/
def Kept (m : RequestMessage) : Prop :=
  ∃ req, parseRequest codec junk (some m.encode) m.encode.length = .ok (some req) ∧
    serialized junk (writeRequest junk req) = m.encode ∧
    ∀ sha256 sha1 : List UInt8 → List UInt8,
      requestDigest sha256 sha1 junk req = hashFor sha256 sha1 req.pkiType m.unsigned.encode

/-- Details that are parsed are written somehow. -/
theorem appends_parsed_details
    {m : DetailsMessage} {details : BRPaymentProtocolDetails}
    (hm : m.Canonical)
    (hlen : m.encode.length < 2 ^ 63)
    (hparse : parseDetails codec junk (some m.encode) m.encode.length = .ok details) :
    Appends (writeDetails junk details) (serialized junk (writeDetails junk details)) := by
  obtain ⟨outs, array, houts, -, rfl⟩ := (parseDetails_encode_iff hm hlen).mp hparse
  have houtputs : ∀ out ∈ m.outputs, out.encode.length < 2 ^ 63 := by
    intro out hout
    have hle := DetailsMessage.length_outputs hout
    omega
  have hwrite := appends_writeDetails_parsed m array
    (appends_parsed_outputs hm.outputs houtputs houts)
  rwa [serialized_eq junk hwrite]

/-- **Payment request bytes.**  A canonical request is serialized as it was received,
and its digest is that of the merchant's bytes with an empty signature, if and only if
no string has a NUL and each message has at most one unknown field, for which there is
room. -/
theorem kept_iff_survives
    (codec : ScriptCodec) (junk : ℕ → UInt8) (m : RequestMessage)
    (hm : m.Canonical)
    (hlen : m.encode.length < 2 ^ 63) :
    m.Kept codec junk ↔ m.Survives := by
  have hdetailsLen : m.details.encode.length < 2 ^ 63 := by
    have hle := m.length_details
    omega
  have hunknown : (WireField.encodeAll m.unknown).length < 2 ^ 63 := by
    have hlen' := hlen
    rw [encode, WireField.encodeAll_append, List.length_append] at hlen'
    omega
  have hkeep := keepFields_iff junk m.encode.length hm.unknown.fits
    hm.unknown.keys_ascending hunknown
  have hdetailsKept := DetailsMessage.kept_iff codec junk hm.details
    hdetailsLen
  constructor
  · rintro ⟨req, hparse, hbytes, -⟩
    obtain ⟨details, array, hdetails, harray, rfl⟩ := (parseRequest_encode_iff hm hlen).mp hparse
    have hwritten := appends_parsed_details hm.details hdetailsLen hdetails
    have hwrite := appends_writeRequest_parsed m array hwritten le_rfl
    have hsame := (serialized_eq junk hwrite).symm.trans hbytes
    have hknownFields : ∀ f ∈ m.rewritten junk details (m.signature.getD []).length,
        KnownField f := by
      simp only [rewritten, List.forall_mem_append, List.forall_mem_cons]
      exact ⟨knownField_intField (by norm_num) (version_lt _),
        knownField_textField (by norm_num) _, knownField_bytesField (by norm_num) _,
        knownField_data (by norm_num) _, knownField_bytesField (by norm_num) _⟩
    have hcount : (m.rewritten junk details (m.signature.getD []).length).length =
        m.known.length := by
      rw [rewritten, known, take_signature]
      simp only [List.length_append, List.length_cons, length_textField]
    obtain ⟨hknown, hrest⟩ := (encodeAll_parts_iff _ hcount hknownFields m.knownField_known
      hlen).mp hsame
    obtain ⟨hpkiType, hdetailsBytes⟩ := (m.rewritten_eq_iff details).mp hknown
    rw [hdetailsBytes] at hwritten
    exact ⟨hpkiType, hdetailsKept.mp ⟨details, hdetails, hwritten⟩,
      hkeep.mp ⟨array, harray, hrest⟩⟩
  · intro h
    obtain ⟨details, hdetails, hdetailsWrite⟩ := hdetailsKept.mpr h.details
    obtain ⟨array, harray, hrest⟩ := hkeep.mpr h.unknown
    have hdetailsBytes := serialized_eq junk hdetailsWrite
    have hwritten := hdetailsWrite
    rw [← hdetailsBytes] at hwritten
    have hpkiType := (textField_eq_iff requestPkiTypeKey).mpr h.pkiType
    refine ⟨m.parsed details array,
      (parseRequest_encode_iff hm hlen).mpr ⟨details, array, hdetails, harray, rfl⟩, ?_, ?_⟩
    · have hwrite := appends_writeRequest_parsed m array hwritten le_rfl
      have hknown := (m.rewritten_eq_iff details).mpr ⟨h.pkiType, hdetailsBytes⟩
      rw [hknown, hrest, ← WireField.encodeAll_append] at hwrite
      exact serialized_eq junk hwrite
    · intro sha256 sha1
      have hwrite := appends_writeRequest_parsed (n := 0) m array hwritten (Nat.zero_le _)
      have hknown : m.rewritten junk details 0 = m.unsigned.known := by
        rw [rewritten, known, hpkiType, hdetailsBytes]
        rfl
      rw [hknown, hrest, ← WireField.encodeAll_append] at hwrite
      rw [requestDigest, serialized_eq junk hwrite]
      rfl

/-- A signed request for one output, with the unknown fields `fs`. -/
def merchantRequest (fs : List WireField) : RequestMessage where
  version := some 1
  pkiType := some x509Sha256
  pkiData := some [1, 2, 3]
  details := { outputs := [{ amount := some 5000, script := [0x51] }], time := some 300 }
  signature := some [9, 9]
  unknown := fs

theorem canonical_merchantRequest
    {fs : List WireField}
    (hfs : UnknownBehind requestSignatureKey fs) :
    (merchantRequest fs).Canonical := by
  refine ⟨⟨?_, .nil, List.forall_mem_nil _, List.forall_mem_nil _⟩, hfs⟩
  intro out hout
  obtain rfl := List.mem_singleton.mp hout
  exact ⟨.nil, List.forall_mem_nil _, List.forall_mem_nil _⟩

/-- One unknown field is kept. -/
theorem merchantRequest_kept :
    (merchantRequest [⟨6, .varint 1⟩]).Kept noAddressCodec (fun _ => 0xaa) := by
  refine (kept_iff_survives noAddressCodec (fun _ => 0xaa) (merchantRequest [⟨6, .varint 1⟩])
    (canonical_merchantRequest ⟨List.pairwise_singleton _ _, ?_, ?_⟩) (by decide +kernel)).mpr ?_
  · simp [WireField.Fits, WireField.key, WireValue.type, WireValue.Fits]
  · simp
  · refine ⟨?_, ⟨?_, ?_, ?_, ?_, ?_⟩, ?_⟩
    · simp [TextSurvives, merchantRequest, x509Sha256]
    · simp [TextSurvives, merchantRequest]
    · simp [OutputMessage.Survives, UnknownSurvives, merchantRequest]
    · simp [TextSurvives, merchantRequest]
    · simp [TextSurvives, merchantRequest]
    · simp [UnknownSurvives, merchantRequest]
    · refine ⟨le_rfl, fun f hf => ?_⟩
      obtain rfl := List.mem_singleton.mp hf
      decide

/-- Of two unknown fields the second one is written first. -/
theorem not_merchantRequest_kept :
    let m := merchantRequest [⟨6, .varint 1⟩, ⟨7, .varint 2⟩]
    m.Canonical ∧ m.encode.length < 2 ^ 63 ∧
      (parseRequest noAddressCodec (fun _ => 0xaa) (some m.encode) m.encode.length).map
          (Option.map (fun req => serialized (fun _ => 0xaa) (writeRequest (fun _ => 0xaa) req))) =
        .ok (some (merchantRequest [⟨7, .varint 2⟩, ⟨6, .varint 1⟩]).encode) ∧
      ¬ m.Kept noAddressCodec (fun _ => 0xaa) := by
  intro m
  have hwritten : (parseRequest noAddressCodec (fun _ => 0xaa) (some m.encode)
      m.encode.length).map
        (Option.map (fun req => serialized (fun _ => 0xaa) (writeRequest (fun _ => 0xaa) req))) =
      .ok (some (merchantRequest [⟨7, .varint 2⟩, ⟨6, .varint 1⟩]).encode) := by
    decide +kernel
  refine ⟨canonical_merchantRequest ⟨?_, ?_, ?_⟩, by decide +kernel, hwritten, ?_⟩
  · simp
  · simp [WireField.Fits, WireField.key, WireValue.type, WireValue.Fits]
  · rw [List.forall_mem_cons, List.forall_mem_singleton]
    exact ⟨by norm_num, by norm_num⟩
  · rintro ⟨req, hparse, hbytes, -⟩
    rw [hparse] at hwritten
    have hsame : m.encode = (merchantRequest [⟨7, .varint 2⟩, ⟨6, .varint 1⟩]).encode :=
      hbytes.symm.trans (Option.some.inj (Except.ok.inj hwritten))
    revert hsame
    decide +kernel

end RequestMessage

end Digest

end BreadwalletCore
