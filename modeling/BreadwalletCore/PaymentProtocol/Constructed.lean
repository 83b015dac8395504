import BreadwalletCore.PaymentProtocol.Writers

/-!
# Messages that are constructed

A message that was constructed is serialized and parsed again.  What comes back
has the content of the arguments, but for the outputs of the details, whose count
the constructor leaves at 0.
-/

namespace BreadwalletCore

open ProtoBuf ByteWriter

/-! ## Fields of arguments -/

/-- The field of a string, if there is one. -/
def textField (key : ℕ) (arg : Option (List UInt8)) : List WireField :=
  (arg.map (fun str => ⟨key, .data (cString str)⟩)).toList

/-- The field of an array, if there is one. -/
def bytesField (key : ℕ) (arg : Option (List UInt8)) : List WireField :=
  (arg.map (fun data => ⟨key, .data data⟩)).toList

theorem newBytes_eq
    (arg : Option (List UInt8)) :
    newBytes arg = (arg, (arg.getD []).length) := by
  cases arg with
  | none =>
      rfl
  | some data =>
      rfl

theorem cString_terminated
    (str : List UInt8) :
    cString (cString str ++ [0]) = cString str := by
  have hall : ∀ b ∈ cString str, (decide (b ≠ 0)) = true :=
    List.all_eq_true.mp List.all_takeWhile
  rw [cString, List.takeWhile_append_of_pos hall]
  exact List.append_nil _

theorem encodeAll_singleton
    (f : WireField) :
    WireField.encodeAll [f] = f.encode := by
  exact List.append_nil _

/-- A string that was kept is written up to its NUL. -/
theorem appends_newString
    (str : List UInt8) (key : ℕ) :
    Appends (fun w => setString w (newString (some str)) key)
      (WireField.encodeAll [⟨key, .data (cString str)⟩]) := by
  have h := appends_setString (cString str ++ [0]) key
  rw [cString_terminated] at h
  rw [encodeAll_singleton]
  exact h

theorem appends_textField
    (arg : Option (List UInt8)) (key : ℕ) :
    Appends (fun w => if (newString arg).isSome then setString w (newString arg) key else w)
      (WireField.encodeAll (textField key arg)) := by
  cases arg with
  | none =>
      exact appends_id
  | some str =>
      exact appends_newString str key

theorem appends_bytesField
    (arg : Option (List UInt8)) (key : ℕ) :
    Appends (fun w => if (newBytes arg).1.isSome then
        setBytes w (newBytes arg).1 (newBytes arg).2 key
      else w)
      (WireField.encodeAll (bytesField key arg)) := by
  cases arg with
  | none =>
      exact appends_id
  | some data =>
      rw [bytesField, Option.map_some, Option.toList_some, encodeAll_singleton]
      exact appends_setBytes_all data key

/-- A number that fits in 64 bits, or bytes, under one of the known keys. -/
def KnownField (f : WireField) : Prop :=
  f.number < 8 ∧ ((∃ v < 2 ^ 64, f.value = .varint v) ∨ ∃ l, f.value = .data l)

theorem knownField_varint
    {key : ℕ}
    (hkey : key < 8)
    (v : UInt64) :
    KnownField ⟨key, .varint v.toNat⟩ :=
  ⟨hkey, Or.inl ⟨v.toNat, v.toNat_lt, rfl⟩⟩

theorem knownField_data
    {key : ℕ}
    (hkey : key < 8)
    (l : List UInt8) :
    KnownField ⟨key, .data l⟩ :=
  ⟨hkey, Or.inr ⟨l, rfl⟩⟩

theorem knownField_textField
    {key : ℕ}
    (hkey : key < 8)
    (arg : Option (List UInt8)) :
    ∀ f ∈ textField key arg, KnownField f := by
  intro f hf
  obtain ⟨str, -, rfl⟩ := Option.mem_map.mp (Option.mem_toList.mp hf)
  exact knownField_data hkey _

theorem knownField_bytesField
    {key : ℕ}
    (hkey : key < 8)
    (arg : Option (List UInt8)) :
    ∀ f ∈ bytesField key arg, KnownField f := by
  intro f hf
  obtain ⟨data, -, rfl⟩ := Option.mem_map.mp (Option.mem_toList.mp hf)
  exact knownField_data hkey _

theorem fits_varint
    {number v : ℕ}
    (hnumber : number < 2 ^ 60)
    (hv : v < 2 ^ 64) :
    WireField.Fits ⟨number, .varint v⟩ := by
  refine ⟨?_, hv⟩
  change 8 * number + 0 < 2 ^ 64
  omega

/-- Data in a message that exists has a length that can be written. -/
theorem fits_data_of_mem
    {fs : List WireField} {number : ℕ} {l : List UInt8}
    (hlen : (WireField.encodeAll fs).length < 2 ^ 63)
    (hnumber : number < 2 ^ 60)
    (hmem : ⟨number, .data l⟩ ∈ fs) :
    WireField.Fits ⟨number, .data l⟩ := by
  have hle := WireField.length_encode_le hmem
  have hdata := WireField.length_data_le number l
  have hl : l.length < 2 ^ 64 := by
    omega
  refine ⟨?_, hl⟩
  change 8 * number + 2 < 2 ^ 64
  omega

/-- The fields of a message that exists can be read. -/
theorem fits_of_known
    {fs : List WireField}
    (hlen : (WireField.encodeAll fs).length < 2 ^ 63)
    (hknown : ∀ f ∈ fs, KnownField f) :
    ∀ f ∈ fs, f.Fits := by
  intro f hf
  obtain ⟨hnumber, hvalue⟩ := hknown f hf
  obtain ⟨number, value⟩ := f
  dsimp only at hnumber hvalue
  rcases hvalue with ⟨v, hv, rfl⟩ | ⟨l, rfl⟩
  · exact fits_varint (by omega) hv
  · exact fits_data_of_mem hlen (by omega) hf

/-- The loop of a parser over a message that exists. -/
theorem readMessage_encodeAll
    {σ : Type} (step : FieldStep σ) {fs : List WireField}
    (hlen : (WireField.encodeAll fs).length < 2 ^ 63)
    (hknown : ∀ f ∈ fs, KnownField f)
    (s : σ) :
    readMessage step (some (WireField.encodeAll fs)) (WireField.encodeAll fs).length s =
      fs.foldlM (stepWire step (WireField.encodeAll fs).length) s := by
  exact readFields_encodeAll step (fits_of_known hlen hknown) (by omega) s

section Fold

variable {σ : Type} (f : σ → WireField → Except ProtoBufFault σ) {s : σ} (key : ℕ)

/-- Reading a string that may be absent: `g` is the state with the string. -/
theorem foldlM_textField
    (g : Option (List UInt8) → σ)
    (hnone : g none = s)
    (hsome : ∀ str, f s ⟨key, .data (cString str)⟩ = .ok (g (newString (some str))))
    (arg : Option (List UInt8)) :
    (textField key arg).foldlM f s = .ok (g (newString arg)) := by
  cases arg with
  | none =>
      change Except.ok s = Except.ok (g none)
      rw [hnone]
  | some str =>
      rw [textField, Option.map_some, Option.toList_some, List.foldlM_cons, hsome str]
      rfl

/-- Reading an array that may be absent. -/
theorem foldlM_bytesField
    (g : Option (List UInt8) × ℕ → σ)
    (hnone : g (none, 0) = s)
    (hsome : ∀ data, f s ⟨key, .data data⟩ = .ok (g (newBytes (some data))))
    (arg : Option (List UInt8)) :
    (bytesField key arg).foldlM f s = .ok (g (newBytes arg)) := by
  cases arg with
  | none =>
      change Except.ok s = Except.ok (g (none, 0))
      rw [hnone]
  | some data =>
      rw [bytesField, Option.map_some, Option.toList_some, List.foldlM_cons, hsome data]
      rfl

end Fold

/-! ## Outputs -/

section Outputs

variable (codec : ScriptCodec) (junk : ℕ → UInt8)

def outputFields (amount : UInt64) (script : List UInt8) : List WireField :=
  [⟨outputAmountKey, .varint amount.toNat⟩, ⟨outputScriptKey, .data script⟩]

theorem appends_writeOutput
    (amount : UInt64) (script : List UInt8) :
    Appends (writeOutput (newPaymentOutput codec amount script))
      (WireField.encodeAll (outputFields amount script)) := by
  have hfields : WireField.encodeAll (outputFields amount script) =
      WireField.encode ⟨outputAmountKey, .varint amount.toNat⟩ ++
        WireField.encode ⟨outputScriptKey, .data script⟩ := by
    rw [outputFields, WireField.encodeAll_cons, encodeAll_singleton]
  rw [hfields]
  exact (appends_setInt amount.toNat outputAmountKey).comp
    (appends_setBytes_all script outputScriptKey)

/-- An output that was constructed comes back. -/
theorem parseOutputMessage_outputFields
    {amount : UInt64} {script : List UInt8}
    (hlen : (WireField.encodeAll (outputFields amount script)).length < 2 ^ 63) :
    parseOutputMessage codec junk (some (WireField.encodeAll (outputFields amount script)))
        (WireField.encodeAll (outputFields amount script)).length =
      .ok (some (newPaymentOutput codec amount script)) := by
  have hknown : ∀ f ∈ outputFields amount script, KnownField f := by
    simp only [outputFields, List.forall_mem_cons]
    exact ⟨knownField_varint (by norm_num) amount, knownField_data (by norm_num) script,
      List.forall_mem_nil _⟩
  rw [parseOutputMessage, readFields_encodeAll _ (fits_of_known hlen hknown) (by omega)]
  simp only [outputFields, List.foldlM_cons, List.foldlM_nil, stepWire, outputStep, key_div_varint, key_div_data,
    Machine.ok_bind, UInt64.ofNat_toNat]
  rfl

end Outputs

/-! ## Requests -/

section Requests

variable (codec : ScriptCodec) (junk : ℕ → UInt8)

/-- The fields that are written of constructed details. -/
def detailsFields (args : DetailsArgs) : List WireField :=
  textField detailsNetworkKey args.network ++
    (⟨detailsTimeKey, .varint args.time.toNat⟩ ::
      ⟨detailsExpiresKey, .varint args.expires.toNat⟩ ::
        (textField detailsMemoKey args.memo ++ (textField detailsPaymentUrlKey args.paymentURL ++
          bytesField detailsMerchDataKey args.merchantData)))

theorem appends_writeDetails
    (args : DetailsArgs) :
    Appends (writeDetails junk (newDetails codec args))
      (WireField.encodeAll (detailsFields args)) := by
  have htime := appends_setInt args.time.toNat detailsTimeKey
  have hexpires := appends_setInt args.expires.toNat detailsExpiresKey
  have hmemo := appends_textField args.memo detailsMemoKey
  have hurl := appends_textField args.paymentURL detailsPaymentUrlKey
  have hdata := appends_bytesField args.merchantData detailsMerchDataKey
  have hrest := htime.comp (hexpires.comp (hmemo.comp (hurl.comp hdata)))
  rw [detailsFields, WireField.encodeAll_append, WireField.encodeAll_cons,
    WireField.encodeAll_cons, WireField.encodeAll_append, WireField.encodeAll_append]
  -- The count of the outputs is 0, so none of them is written.
  obtain ⟨network, _, _, _, _, _, _⟩ := args
  cases network with
  | none =>
      exact appends_id.comp hrest
  | some str =>
      exact (appends_newString str detailsNetworkKey).comp hrest

/-- The context of details that were parsed as far as their network. -/
def detailsUnread : ProtoBufContext :=
  ((newContext (detailsMerchDataKey + 1)).setDefault detailsTimeKey true).setDefault
    detailsExpiresKey true

/-- The parser's loop over the fields of constructed details. -/
theorem foldlM_detailsFields
    (args : DetailsArgs) (len : ℕ) :
    (detailsFields args).foldlM (stepWire (detailsStep codec junk) len) { ctx := detailsUnread } =
      .ok ⟨newString args.network, [], 0, args.time, args.expires, newString args.memo,
        newString args.paymentURL, (newBytes args.merchantData).1,
        (newBytes args.merchantData).2, newContext (detailsMerchDataKey + 1)⟩ := by
  have hnetwork := foldlM_textField
    (stepWire (detailsStep codec junk) len) detailsNetworkKey
    (fun x => ⟨x, [], 0, 0, 0, none, none, none, 0, detailsUnread⟩)
    rfl (fun str => by simp only [stepWire, detailsStep, key_div_data]; rfl) args.network
  have htime : stepWire (detailsStep codec junk) len
      ⟨newString args.network, [], 0, 0, 0, none, none, none, 0, detailsUnread⟩
        ⟨detailsTimeKey, .varint args.time.toNat⟩ =
      .ok ⟨newString args.network, [], 0, args.time, 0, none, none, none, 0,
        (newContext (detailsMerchDataKey + 1)).setDefault detailsExpiresKey true⟩ := by
    simp only [stepWire, detailsStep, key_div_varint, UInt64.ofNat_toNat]
    rfl
  have hexpires : stepWire (detailsStep codec junk) len
      ⟨newString args.network, [], 0, args.time, 0, none, none, none, 0,
        (newContext (detailsMerchDataKey + 1)).setDefault detailsExpiresKey true⟩
        ⟨detailsExpiresKey, .varint args.expires.toNat⟩ =
      .ok ⟨newString args.network, [], 0, args.time, args.expires, none, none, none, 0,
        newContext (detailsMerchDataKey + 1)⟩ := by
    simp only [stepWire, detailsStep, key_div_varint, UInt64.ofNat_toNat]
    rfl
  have hmemo := foldlM_textField
    (stepWire (detailsStep codec junk) len) detailsMemoKey
    (fun x => ⟨newString args.network, [], 0, args.time, args.expires, x, none, none, 0,
      newContext (detailsMerchDataKey + 1)⟩)
    rfl (fun str => by simp only [stepWire, detailsStep, key_div_data]; rfl) args.memo
  have hurl := foldlM_textField
    (stepWire (detailsStep codec junk) len) detailsPaymentUrlKey
    (fun x => ⟨newString args.network, [], 0, args.time, args.expires, newString args.memo, x,
      none, 0, newContext (detailsMerchDataKey + 1)⟩)
    rfl (fun str => by simp only [stepWire, detailsStep, key_div_data]; rfl) args.paymentURL
  have hdata := foldlM_bytesField
    (stepWire (detailsStep codec junk) len) detailsMerchDataKey
    (fun x => ⟨newString args.network, [], 0, args.time, args.expires, newString args.memo,
      newString args.paymentURL, x.1, x.2, newContext (detailsMerchDataKey + 1)⟩)
    rfl (fun data => by simp only [stepWire, detailsStep, key_div_data]; rfl) args.merchantData
  rw [detailsFields, List.foldlM_append, hnetwork, Machine.ok_bind, List.foldlM_cons, htime,
    Machine.ok_bind, List.foldlM_cons, hexpires, Machine.ok_bind, List.foldlM_append, hmemo,
    Machine.ok_bind, List.foldlM_append, hurl, Machine.ok_bind, hdata]

/-- The details come back without their outputs. -/
theorem parseDetails_detailsFields
    {args : DetailsArgs}
    (hlen : (WireField.encodeAll (detailsFields args)).length < 2 ^ 63) :
    parseDetails codec junk (some (WireField.encodeAll (detailsFields args)))
        (WireField.encodeAll (detailsFields args)).length =
      .ok (newDetails codec { args with outputs := [] }) := by
  have hknown : ∀ f ∈ detailsFields args, KnownField f := by
    simp only [detailsFields, List.forall_mem_append, List.forall_mem_cons]
    exact ⟨knownField_textField (by norm_num) _, knownField_varint (by norm_num) _,
      knownField_varint (by norm_num) _, knownField_textField (by norm_num) _,
      knownField_textField (by norm_num) _, knownField_bytesField (by norm_num) _⟩
  rw [parseDetails, readMessage_encodeAll _ hlen hknown, ← detailsUnread, foldlM_detailsFields]
  obtain ⟨network, _, _, _, _, _, _⟩ := args
  cases network with
  | none =>
      rfl
  | some str =>
      rfl

/-- The fields that are written of a constructed request. -/
def requestFields (args : RequestArgs) (details : DetailsArgs) : List WireField :=
  (if args.version = 0 then [] else [⟨requestVersionKey, .varint args.version.toNat⟩]) ++
    (textField requestPkiTypeKey args.pkiType ++ (bytesField requestPkiDataKey args.pkiData ++
      (⟨requestDetailsKey, .data (WireField.encodeAll (detailsFields details))⟩ ::
        bytesField requestSignatureKey args.signature)))

/-- What a constructed request leaves out. -/
theorem newRequest_ctx
    (args : RequestArgs) (details : BRPaymentProtocolDetails) :
    (newRequest args details).ctx.isDefault requestVersionKey = decide (args.version = 0) ∧
      (newRequest args details).ctx.isDefault requestPkiTypeKey = args.pkiType.isNone ∧
      (newRequest args details).ctx.unknown = none := by
  obtain ⟨version, pkiType, _, _⟩ := args
  by_cases hzero : version = 0
  · subst hzero
    cases pkiType with
    | none =>
        exact ⟨rfl, rfl, rfl⟩
    | some str =>
        exact ⟨rfl, rfl, rfl⟩
  · simp only [newRequest, if_neg hzero, decide_eq_false hzero]
    cases pkiType with
    | none =>
        exact ⟨rfl, rfl, rfl⟩
    | some str =>
        exact ⟨rfl, rfl, rfl⟩

/-- The version is written unless it has its default. -/
theorem appends_version
    (args : RequestArgs) (details : BRPaymentProtocolDetails) :
    Appends (fun w => if (newRequest args details).ctx.isDefault requestVersionKey then w
        else setInt w (newRequest args details).version.toNat requestVersionKey)
      (WireField.encodeAll (if args.version = 0 then []
        else [⟨requestVersionKey, .varint args.version.toNat⟩])) := by
  rw [(newRequest_ctx args details).1]
  by_cases hzero : args.version = 0
  · simp only [hzero, decide_true, if_true]
    exact appends_id
  · rw [if_neg hzero, encodeAll_singleton]
    simp only [newRequest, hzero, decide_false, Bool.false_eq_true, if_false]
    exact appends_setInt args.version.toNat requestVersionKey

/-- The PKI type is written unless it has its default. -/
theorem appends_pkiType
    (args : RequestArgs) (details : BRPaymentProtocolDetails) :
    Appends (fun w => if (newRequest args details).ctx.isDefault requestPkiTypeKey then w
        else setString w (newRequest args details).pkiType requestPkiTypeKey)
      (WireField.encodeAll (textField requestPkiTypeKey args.pkiType)) := by
  rw [(newRequest_ctx args details).2.1]
  obtain ⟨_, pkiType, _, _⟩ := args
  cases pkiType with
  | none =>
      exact appends_id
  | some str =>
      exact appends_newString str requestPkiTypeKey

theorem appends_writeRequest
    (args : RequestArgs) (details : DetailsArgs) :
    Appends (writeRequest junk (newRequest args (newDetails codec details)))
      (WireField.encodeAll (requestFields args details)) := by
  have hversion := appends_version args (newDetails codec details)
  have hpkiType := appends_pkiType args (newDetails codec details)
  have hpkiData := appends_bytesField args.pkiData requestPkiDataKey
  have hdetails := appends_setMessage junk 0 requestDetailsKey
    (appends_writeDetails codec junk details)
  have hsignature := appends_bytesField args.signature requestSignatureKey
  have hunknown := appends_setUnknown (newRequest args (newDetails codec details)).ctx
  have hnone := (newRequest_ctx args (newDetails codec details)).2.2
  have hwrite := hversion.comp (hpkiType.comp (hpkiData.comp (hdetails.comp
    (hsignature.comp hunknown))))
  rw [hnone, Option.getD_none, List.append_nil] at hwrite
  rw [requestFields, WireField.encodeAll_append, WireField.encodeAll_append,
    WireField.encodeAll_append, WireField.encodeAll_cons]
  exact hwrite

/-- The parser's loop over the fields of a constructed request. -/
theorem foldlM_requestFields
    (args : RequestArgs) {details : DetailsArgs} (len : ℕ)
    (hlen : (WireField.encodeAll (detailsFields details)).length < 2 ^ 63) :
    ∃ ctx, (requestFields args details).foldlM (stepWire (requestStep codec junk) len)
        { version := 1
          ctx := (newContext (requestSignatureKey + 1)).setDefault requestVersionKey true } =
      .ok ⟨if args.version = 0 then 1 else args.version, newString args.pkiType,
        (newBytes args.pkiData).1, (newBytes args.pkiData).2,
        some (newDetails codec { details with outputs := [] }), (newBytes args.signature).1,
        (newBytes args.signature).2, ctx⟩ := by
  obtain ⟨ctx, hversion⟩ : ∃ ctx, List.foldlM (stepWire (requestStep codec junk) len)
      { version := 1
        ctx := (newContext (requestSignatureKey + 1)).setDefault requestVersionKey true }
      (if args.version = 0 then [] else [⟨requestVersionKey, .varint args.version.toNat⟩]) =
      .ok ⟨if args.version = 0 then 1 else args.version, none, none, 0, none, none, 0, ctx⟩ := by
    by_cases hzero : args.version = 0
    · rw [if_pos hzero, if_pos hzero]
      exact ⟨_, rfl⟩
    · rw [if_neg hzero, if_neg hzero]
      simp only [List.foldlM_cons, List.foldlM_nil, stepWire, requestStep, key_div_varint,
        Machine.ok_bind, UInt32.ofNat_toNat]
      exact ⟨_, rfl⟩
  refine ⟨ctx, ?_⟩
  generalize (if args.version = 0 then 1 else args.version) = version at hversion ⊢
  have hpkiType := foldlM_textField
    (stepWire (requestStep codec junk) len) requestPkiTypeKey
    (fun x => ⟨version, x, none, 0, none, none, 0, ctx⟩)
    rfl (fun str => by simp only [stepWire, requestStep, key_div_data]; rfl) args.pkiType
  have hpkiData := foldlM_bytesField
    (stepWire (requestStep codec junk) len) requestPkiDataKey
    (fun x => ⟨version, newString args.pkiType, x.1, x.2, none, none, 0, ctx⟩)
    rfl (fun data => by simp only [stepWire, requestStep, key_div_data]; rfl) args.pkiData
  have hdetails : stepWire (requestStep codec junk) len
      ⟨version, newString args.pkiType, (newBytes args.pkiData).1, (newBytes args.pkiData).2,
        none, none, 0, ctx⟩
        ⟨requestDetailsKey, .data (WireField.encodeAll (detailsFields details))⟩ =
      .ok ⟨version, newString args.pkiType, (newBytes args.pkiData).1,
        (newBytes args.pkiData).2, some (newDetails codec { details with outputs := [] }), none, 0,
        ctx⟩ := by
    simp only [stepWire, requestStep, key_div_data]
    rw [parseDetails_detailsFields codec junk hlen, Machine.ok_bind]
    rfl
  have hsignature := foldlM_bytesField
    (stepWire (requestStep codec junk) len) requestSignatureKey
    (fun x => ⟨version, newString args.pkiType, (newBytes args.pkiData).1,
      (newBytes args.pkiData).2, some (newDetails codec { details with outputs := [] }), x.1, x.2,
      ctx⟩)
    rfl (fun data => by simp only [stepWire, requestStep, key_div_data]; rfl) args.signature
  rw [requestFields, List.foldlM_append, hversion, Machine.ok_bind, List.foldlM_append, hpkiType,
    Machine.ok_bind, List.foldlM_append, hpkiData, Machine.ok_bind, List.foldlM_cons, hdetails,
    Machine.ok_bind, hsignature]

/-- The bytes of a constructed request. -/
def requestBytes (args : RequestArgs) (details : DetailsArgs) : List UInt8 :=
  serialized junk (writeRequest junk (newRequest args (newDetails codec details)))

/-- A request has the content of the arguments. -/
structure SameRequest (req : BRPaymentProtocolRequest) (args : RequestArgs) : Prop where
  version : req.version = if args.version = 0 then 1 else args.version
  pkiType : req.pkiType = newStringOr args.pkiType nonePki
  pkiData : req.pkiData = args.pkiData
  pkiDataLen : req.pkiDataLen = (args.pkiData.getD []).length
  signature : req.signature = args.signature
  sigLen : req.sigLen = (args.signature.getD []).length

/-- Details have the content of the arguments. -/
structure SameDetails (details : BRPaymentProtocolDetails) (args : DetailsArgs) : Prop where
  network : details.network = newStringOr args.network mainNetwork
  outCount : details.outCount = args.outputs.length
  outputs : details.outputs.map (fun out => (out.amount, out.script)) =
    args.outputs.map (fun o => (o.1, some o.2))
  time : details.time = args.time
  expires : details.expires = args.expires
  memo : details.memo = newString args.memo
  paymentURL : details.paymentURL = newString args.paymentURL
  merchantData : details.merchantData = args.merchantData
  merchDataLen : details.merchDataLen = (args.merchantData.getD []).length

/-- A constructed request is parsed from its bytes with the content of the
arguments. -/
def RequestKept (args : RequestArgs) (details : DetailsArgs) : Prop :=
  ∃ (req : BRPaymentProtocolRequest) (parsed : BRPaymentProtocolDetails),
    parseRequest codec junk (some (requestBytes codec junk args details))
        (requestBytes codec junk args details).length = .ok (some req) ∧
      req.details = some parsed ∧ SameRequest req args ∧ SameDetails parsed details

variable {codec junk}

/-- What is parsed from the bytes of a constructed request. -/
theorem parseRequest_requestBytes
    {args : RequestArgs} {details : DetailsArgs}
    (hlen : (requestBytes codec junk args details).length < 2 ^ 63) :
    ∃ req, parseRequest codec junk (some (requestBytes codec junk args details))
        (requestBytes codec junk args details).length = .ok (some req) ∧
      req.details = some (newDetails codec { details with outputs := [] }) ∧
      SameRequest req args := by
  have hbytes : requestBytes codec junk args details =
      WireField.encodeAll (requestFields args details) :=
    serialized_eq junk (appends_writeRequest codec junk args details)
  rw [hbytes] at hlen ⊢
  have hdetailsLen : (WireField.encodeAll (detailsFields details)).length < 2 ^ 63 := by
    have hmem : (⟨requestDetailsKey, .data (WireField.encodeAll (detailsFields details))⟩ :
        WireField) ∈ requestFields args details := by
      simp [requestFields]
    have hle := WireField.length_encode_le hmem
    have hdata := WireField.length_data_le requestDetailsKey
      (WireField.encodeAll (detailsFields details))
    omega
  have hknown : ∀ f ∈ requestFields args details, KnownField f := by
    simp only [requestFields, List.forall_mem_append, List.forall_mem_cons]
    refine ⟨?_, knownField_textField (by norm_num) _, knownField_bytesField (by norm_num) _,
      knownField_data (by norm_num) _, knownField_bytesField (by norm_num) _⟩
    split
    · exact List.forall_mem_nil _
    · intro f hf
      obtain rfl := List.mem_singleton.mp hf
      have hsmall := args.version.toNat_lt
      exact ⟨by norm_num, Or.inl ⟨_, by omega, rfl⟩⟩
  obtain ⟨ctx, hfold⟩ := foldlM_requestFields codec junk args
    (WireField.encodeAll (requestFields args details)).length hdetailsLen
  rw [parseRequest, readMessage_encodeAll _ hlen hknown, hfold, newBytes_eq, newBytes_eq]
  obtain ⟨version, pkiType, pkiData, signature⟩ := args
  cases pkiType with
  | none =>
      exact ⟨_, rfl, rfl, rfl, rfl, rfl, rfl, rfl, rfl⟩
  | some str =>
      exact ⟨_, rfl, rfl, rfl, rfl, rfl, rfl, rfl, rfl⟩

/-- A constructed request keeps its content if and only if it has no outputs. -/
theorem requestKept_iff
    {args : RequestArgs} {details : DetailsArgs}
    (hlen : (requestBytes codec junk args details).length < 2 ^ 63) :
    RequestKept codec junk args details ↔ details.outputs = [] := by
  obtain ⟨req, hparse, hdetails, hreq⟩ := parseRequest_requestBytes hlen
  constructor
  · rintro ⟨req', parsed, hparse', hparsed, -, hsame⟩
    rw [hparse'] at hparse
    cases hparse
    rw [hparsed] at hdetails
    cases hdetails
    exact List.eq_nil_of_length_eq_zero hsame.outCount.symm
  · intro hnil
    refine ⟨req, _, hparse, hdetails, hreq, ?_⟩
    refine ⟨rfl, ?_, ?_, rfl, rfl, rfl, rfl, ?_, ?_⟩
    · rw [hnil]
      rfl
    · rw [hnil]
      rfl
    · rw [newDetails, newBytes_eq]
    · rw [newDetails, newBytes_eq]

end Requests

end BreadwalletCore
