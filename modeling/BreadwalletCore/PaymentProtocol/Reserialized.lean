import BreadwalletCore.PaymentProtocol.Messages

/-!
# Requests that are serialized again

A request that was parsed is written with its known fields in ascending order and
the unknown ones behind them.  The bytes are the merchant's if no string has a NUL
and no message has more than one unknown field, or one without room.
-/

namespace BreadwalletCore

open ProtoBuf ByteWriter

/-! ## Known and unknown fields -/

section Parts

variable {σ : Type} {junk : ℕ → UInt8}

/-- The parser's loop over the unknown fields: `g` is the state with them. -/
theorem foldlM_unknown
    {step : FieldStep σ} (len : ℕ) (g : Option (List UInt8) → σ) {fs : List WireField}
    (hstep : ∀ f ∈ fs, ∀ array i data dataLen, step (g array) f.key i data dataLen =
      (keepField junk array f.key i data dataLen).map g)
    (array : Option (List UInt8)) :
    fs.foldlM (stepWire step len) (g array) =
      (fs.foldlM (stepWire (keepField junk) len) array).map g := by
  induction fs generalizing array with
  | nil =>
      rfl
  | cons f fs ih =>
      rw [List.forall_mem_cons] at hstep
      have hfirst : stepWire step len (g array) f =
          (stepWire (keepField junk) len array f).map g := by
        rw [stepWire, stepWire]
        cases f.value <;> exact hstep.1 _ _ _ _
      rw [List.foldlM_cons, List.foldlM_cons, hfirst]
      cases stepWire (keepField junk) len array f with
      | error e =>
          rfl
      | ok array' =>
          exact ih hstep.2 array'

/-- The parser's loop over a number: `g` is the state with it. -/
theorem foldlM_intField
    {U : Type} (toNat : U → ℕ) (f : σ → WireField → Except ProtoBufFault σ) {s : σ} (key : ℕ)
    (g : Option U → σ)
    (hnone : g none = s)
    (hsome : ∀ v, f s ⟨key, .varint (toNat v)⟩ = .ok (g (some v)))
    (arg : Option U) :
    (intField key (arg.map toNat)).foldlM f s = .ok (g arg) := by
  cases arg with
  | none =>
      change Except.ok s = Except.ok (g none)
      rw [hnone]
  | some v =>
      rw [intField, Option.map_some, Option.map_some, Option.toList_some, List.foldlM_cons,
        hsome v]
      rfl

/-- The parser's loop over data: `g` is the state with it. -/
theorem foldlM_dataField
    (f : σ → WireField → Except ProtoBufFault σ) {s : σ} (key : ℕ)
    (g : Option (List UInt8) → σ)
    (hnone : g none = s)
    (hsome : ∀ data, f s ⟨key, .data data⟩ = .ok (g (some data)))
    (arg : Option (List UInt8)) :
    (bytesField key arg).foldlM f s = .ok (g arg) := by
  cases arg with
  | none =>
      change Except.ok s = Except.ok (g none)
      rw [hnone]
  | some data =>
      rw [bytesField, Option.map_some, Option.toList_some, List.foldlM_cons, hsome data]
      rfl

/-- A number is written unless it has its default. -/
theorem appends_intField
    (key : ℕ) (arg : Option ℕ) :
    Appends (fun w => if arg.isNone then w else setInt w (arg.getD 0) key)
      (WireField.encodeAll (intField key arg)) := by
  cases arg with
  | none =>
      exact appends_id
  | some v =>
      rw [intField, Option.map_some, Option.toList_some, encodeAll_singleton]
      exact appends_setInt v key

theorem knownField_intField
    {key : ℕ}
    (hkey : key < 8)
    {arg : Option ℕ}
    (harg : ∀ v ∈ arg, v < 2 ^ 64) :
    ∀ f ∈ intField key arg, KnownField f := by
  intro f hf
  obtain ⟨v, hv, rfl⟩ := Option.mem_map.mp (Option.mem_toList.mp hf)
  exact ⟨hkey, Or.inl ⟨v, harg v hv, rfl⟩⟩

/-- Known fields that are written, with the unknown ones behind them, are those that
were read if and only if both parts are. -/
theorem encodeAll_parts_iff
    {fs gs us : List WireField} (array : List UInt8)
    (hcount : fs.length = gs.length)
    (hfs : ∀ f ∈ fs, KnownField f)
    (hgs : ∀ f ∈ gs, KnownField f)
    (hlen : (WireField.encodeAll (gs ++ us)).length < 2 ^ 63) :
    WireField.encodeAll fs ++ array = WireField.encodeAll (gs ++ us) ↔
      fs = gs ∧ array = WireField.encodeAll us := by
  constructor
  · intro h
    have htotal := congrArg List.length h
    rw [WireField.encodeAll_append] at h
    rw [WireField.encodeAll_append, List.length_append, List.length_append] at htotal
    rw [WireField.encodeAll_append, List.length_append] at hlen
    exact WireField.encodeAll_append_inj (fits_of_known (by omega) hfs)
      (fits_of_known (by omega) hgs) hcount h
  · rintro ⟨rfl, rfl⟩
    rw [WireField.encodeAll_append]

end Parts

/-! ## Outputs -/

section Outputs

variable {codec : ScriptCodec} {junk : ℕ → UInt8}

/-- What is parsed of an output when `array` is kept of its unknown fields. -/
def OutputMessage.parsed (codec : ScriptCodec) (m : OutputMessage)
    (array : Option (List UInt8)) : PaymentOutput where
  address := codec.addressFromScriptPubKey m.script
  amount := m.amount.getD 0
  script := some m.script
  ctx := { defaults := [false, m.amount.isNone, false], unknown := array }

theorem OutputMessage.knownField_known
    (m : OutputMessage) :
    ∀ f ∈ m.known, KnownField f := by
  simp only [OutputMessage.known, List.forall_mem_append, List.forall_mem_cons]
  refine ⟨knownField_intField (by norm_num) ?_, knownField_data (by norm_num) _,
    List.forall_mem_nil _⟩
  intro v hv
  obtain ⟨amount, -, rfl⟩ := Option.mem_map.mp hv
  exact amount.toNat_lt

/-- The fields of a message that exists can be read. -/
theorem fits_of_parts
    {last : ℕ} {fs us : List WireField}
    (hfs : ∀ f ∈ fs, KnownField f)
    (hus : UnknownBehind last us)
    (hlen : (WireField.encodeAll (fs ++ us)).length < 2 ^ 63) :
    ∀ f ∈ fs ++ us, f.Fits := by
  have hlen' := hlen
  rw [WireField.encodeAll_append, List.length_append] at hlen'
  exact List.forall_mem_append.mpr ⟨fits_of_known (by omega) hfs, hus.fits⟩

theorem outputStep_unknown
    {f : WireField}
    (hfits : f.Fits)
    (hbehind : outputScriptKey < f.number)
    (m : OutputMessage) (array : Option (List UInt8)) (i : ℕ) (data : Option (List UInt8))
    (dataLen : ℕ) :
    outputStep codec junk (m.parsed codec array) f.key i data dataLen =
      (keepField junk array f.key i data dataLen).map (m.parsed codec) := by
  obtain ⟨k, hk⟩ : ∃ k, f.number = k + 3 := ⟨f.number - 3, by
    change 2 < f.number at hbehind
    omega⟩
  rw [outputStep, key_div_eight hfits, hk, keepField]
  change (do
    let ctx ← (m.parsed codec array).ctx.addUnknown junk f.key i data dataLen
    return { m.parsed codec array with ctx := ctx }) = _
  rw [ProtoBufContext.addUnknown]
  change (do
    let ctx ← (do
      let unknown ← ProtoBuf.unknown junk array f.key i data dataLen
      return { (m.parsed codec array).ctx with unknown := some unknown })
    return { m.parsed codec array with ctx := ctx }) = _
  cases ProtoBuf.unknown junk array f.key i data dataLen with
  | error e =>
      rfl
  | ok unknown =>
      rfl

/-- The parser on an output. -/
theorem parseOutputMessage_encode
    (codec : ScriptCodec) (junk : ℕ → UInt8) {m : OutputMessage}
    (hm : m.Canonical)
    (hlen : m.encode.length < 2 ^ 63) :
    parseOutputMessage codec junk (some m.encode) m.encode.length =
      (keepFields junk m.encode.length m.unknown).map (fun array => some (m.parsed codec array)) := by
  have hfits := fits_of_parts m.knownField_known hm hlen
  rw [OutputMessage.encode] at hlen ⊢
  rw [parseOutputMessage, readFields_encodeAll _ hfits (by omega), List.foldlM_append]
  generalize (WireField.encodeAll (m.known ++ m.unknown)).length = len
  have hknown : m.known.foldlM (stepWire (outputStep codec junk) len)
      { ctx := (newContext (outputScriptKey + 1)).setDefault outputAmountKey true } =
      .ok (m.parsed codec none) := by
    obtain ⟨amount, script, unknown⟩ := m
    cases amount with
    | none =>
        simp only [OutputMessage.known, intField, Option.map_none, Option.toList_none,
          List.nil_append, List.foldlM_cons, List.foldlM_nil, stepWire, outputStep, key_div_data,
          Machine.ok_bind]
        rfl
    | some amount =>
        simp only [OutputMessage.known, intField, Option.map_some, Option.toList_some,
          List.cons_append, List.nil_append, List.foldlM_cons, List.foldlM_nil, stepWire,
          outputStep, key_div_varint, key_div_data, Machine.ok_bind, UInt64.ofNat_toNat]
        rfl
  rw [hknown, Machine.ok_bind, foldlM_unknown len (m.parsed codec) (fun f hf array i data dataLen =>
    outputStep_unknown (hm.fits f hf) (hm.behind f hf) m array i data dataLen), ← keepFields]
  cases keepFields junk len m.unknown with
  | error e =>
      rfl
  | ok array =>
      rfl

/-- What is written of an output that was parsed. -/
theorem appends_writeOutput_parsed
    (codec : ScriptCodec) (m : OutputMessage) (array : Option (List UInt8)) :
    Appends (writeOutput (m.parsed codec array))
      (WireField.encodeAll m.known ++ array.getD []) := by
  have hamount := appends_intField outputAmountKey (m.amount.map UInt64.toNat)
  have hscript := appends_setBytes_all m.script outputScriptKey
  have hunknown := appends_setUnknown (m.parsed codec array).ctx
  have hwrite := (hamount.comp hscript).comp hunknown
  rw [OutputMessage.known, WireField.encodeAll_append, encodeAll_singleton]
  obtain ⟨amount, script, unknown⟩ := m
  cases amount with
  | none =>
      exact hwrite
  | some amount =>
      exact hwrite

/-- What is written is determined. -/
theorem appends_unique
    {f : ByteWriter UInt8 → ByteWriter UInt8} {l m : List UInt8}
    (hl : Appends f l)
    (hm : Appends f m) :
    l = m := by
  have hlen : l.length = m.length := by
    have hoff := (hl.off ⟨l, 0⟩).symm.trans (hm.off ⟨l, 0⟩)
    omega
  have hbuf : (f ⟨l, 0⟩).buf = m := hm.buf_eq hlen
  exact (hl.buf_eq rfl).symm.trans hbuf

variable (codec junk) in
/-- An output is parsed, and written as it was. -/
def OutputMessage.Kept (m : OutputMessage) : Prop :=
  ∃ out, parseOutputMessage codec junk (some m.encode) m.encode.length = .ok (some out) ∧
    Appends (writeOutput out) m.encode

theorem OutputMessage.kept_iff
    {m : OutputMessage}
    (hm : m.Canonical)
    (hlen : m.encode.length < 2 ^ 63) :
    m.Kept codec junk ↔ m.Survives := by
  have hunknown : (WireField.encodeAll m.unknown).length < 2 ^ 63 := by
    have hlen' := hlen
    rw [OutputMessage.encode, WireField.encodeAll_append, List.length_append] at hlen'
    omega
  have hparts := fun array => encodeAll_parts_iff array rfl m.knownField_known
    m.knownField_known hlen
  rw [OutputMessage.Survives, UnknownSurvives,
    ← keepFields_iff junk m.encode.length hm.fits hm.keys_ascending hunknown,
    OutputMessage.Kept, parseOutputMessage_encode codec junk hm hlen]
  constructor
  · rintro ⟨out, hok, hwrite⟩
    cases hkeep : keepFields junk m.encode.length m.unknown with
    | error e =>
        rw [hkeep] at hok
        cases hok
    | ok array =>
        rw [hkeep] at hok
        cases hok
        have hbytes := appends_unique (appends_writeOutput_parsed codec m array) hwrite
        exact ⟨array, rfl, ((hparts _).mp hbytes).2⟩
  · rintro ⟨array, hok, harray⟩
    rw [hok]
    refine ⟨m.parsed codec array, rfl, ?_⟩
    have hwrite := appends_writeOutput_parsed codec m array
    rwa [(hparts _).mpr ⟨rfl, harray⟩] at hwrite

end Outputs

/-! ## Details -/

section Details

variable {codec : ScriptCodec} {junk : ℕ → UInt8}

/-- A string that was read is kept with a NUL behind it. -/
def keptText (text : Option (List UInt8)) : Option (List UInt8) :=
  text.map (· ++ [0])

/-- What is parsed of details, given the outputs and what is kept of the unknown
fields. -/
def DetailsMessage.parsed (m : DetailsMessage) (outs : List PaymentOutput)
    (array : Option (List UInt8)) : BRPaymentProtocolDetails where
  network := some ((m.network.getD mainNetwork) ++ [0])
  outputs := outs
  outCount := outs.length
  time := m.time.getD 0
  expires := m.expires.getD 0
  memo := keptText m.memo
  paymentURL := keptText m.paymentURL
  merchantData := m.merchantData
  merchDataLen := (m.merchantData.getD []).length
  ctx :=
    { defaults := [false, m.network.isNone, false, m.time.isNone, m.expires.isNone, false, false,
        false]
      unknown := array }

/-- The same in front of the end of the parser. -/
def DetailsMessage.read (m : DetailsMessage) (outs : List PaymentOutput)
    (array : Option (List UInt8)) : BRPaymentProtocolDetails where
  network := keptText m.network
  outputs := outs
  time := m.time.getD 0
  expires := m.expires.getD 0
  memo := keptText m.memo
  paymentURL := keptText m.paymentURL
  merchantData := m.merchantData
  merchDataLen := (m.merchantData.getD []).length
  ctx :=
    { defaults := [false, false, false, m.time.isNone, m.expires.isNone, false, false, false]
      unknown := array }

theorem finishDetails_read
    (m : DetailsMessage) (outs : List PaymentOutput) (array : Option (List UInt8)) :
    finishDetails (m.read outs array) = m.parsed outs array := by
  obtain ⟨network, _, _, _, _, _, _, _⟩ := m
  cases network with
  | none =>
      rfl
  | some str =>
      rfl

theorem DetailsMessage.knownField_known
    (m : DetailsMessage) :
    ∀ f ∈ m.known, KnownField f := by
  have hint : ∀ (arg : Option UInt64), ∀ v ∈ arg.map UInt64.toNat, v < 2 ^ 64 := by
    intro arg v hv
    obtain ⟨x, -, rfl⟩ := Option.mem_map.mp hv
    exact x.toNat_lt
  simp only [DetailsMessage.known, List.forall_mem_append, List.forall_mem_map]
  exact ⟨knownField_bytesField (by norm_num) _, fun out _ => knownField_data (by norm_num) _,
    knownField_intField (by norm_num) (hint _), knownField_intField (by norm_num) (hint _),
    knownField_bytesField (by norm_num) _, knownField_bytesField (by norm_num) _,
    knownField_bytesField (by norm_num) _⟩

theorem detailsStep_unknown
    (codec : ScriptCodec) (junk : ℕ → UInt8) {f : WireField}
    (hfits : f.Fits)
    (hbehind : detailsMerchDataKey < f.number)
    (m : DetailsMessage) (outs : List PaymentOutput) (array : Option (List UInt8)) (i : ℕ)
    (data : Option (List UInt8)) (dataLen : ℕ) :
    detailsStep codec junk (m.read outs array) f.key i data dataLen =
      (keepField junk array f.key i data dataLen).map (m.read outs) := by
  obtain ⟨k, hk⟩ : ∃ k, f.number = k + 8 := ⟨f.number - 8, by
    change 7 < f.number at hbehind
    omega⟩
  rw [detailsStep, key_div_eight hfits, hk, keepField]
  change (do
    let ctx ← (do
      let unknown ← ProtoBuf.unknown junk array f.key i data dataLen
      return { (m.read outs array).ctx with unknown := some unknown })
    return { m.read outs array with ctx := ctx }) = _
  cases ProtoBuf.unknown junk array f.key i data dataLen with
  | error e =>
      rfl
  | ok unknown =>
      rfl

/-- The parser's loop over the outputs. -/
theorem foldlM_outputs_iff
    {outputs : List OutputMessage} {len : ℕ} (details : BRPaymentProtocolDetails)
    {details' : BRPaymentProtocolDetails}
    (hcanonical : ∀ out ∈ outputs, out.Canonical)
    (hlen : ∀ out ∈ outputs, out.encode.length < 2 ^ 63) :
    (outputs.map (fun out => (⟨detailsOutputsKey, .data out.encode⟩ : WireField))).foldlM
        (stepWire (detailsStep codec junk) len) details = .ok details' ↔
      ∃ outs, List.Forall₂ (fun m out => parseOutputMessage codec junk (some m.encode)
          m.encode.length = .ok (some out)) outputs outs ∧
        details' = { details with outputs := details.outputs ++ outs } := by
  induction outputs generalizing details with
  | nil =>
      constructor
      · intro h
        cases h
        exact ⟨[], .nil, by simp⟩
      · rintro ⟨outs, houts, rfl⟩
        cases houts
        simp
        rfl
  | cons m outputs ih =>
      rw [List.forall_mem_cons] at hcanonical hlen
      have hstep : stepWire (detailsStep codec junk) len details
          ⟨detailsOutputsKey, .data m.encode⟩ =
          parseOutputMessage codec junk (some m.encode) m.encode.length >>= fun out =>
            .ok { details with outputs := details.outputs ++ out.toList } := by
        simp only [stepWire, detailsStep, key_div_data]
        rfl
      rw [List.map_cons, List.foldlM_cons, hstep,
        parseOutputMessage_encode codec junk hcanonical.1 hlen.1]
      cases hkeep : keepFields junk m.encode.length m.unknown with
      | error e =>
          constructor
          · intro h
            cases h
          · rintro ⟨outs, houts, -⟩
            cases houts with
            | cons hfirst _ =>
                rw [parseOutputMessage_encode codec junk hcanonical.1 hlen.1, hkeep] at hfirst
                cases hfirst
      | ok array =>
          change (_ : Except ProtoBufFault BRPaymentProtocolDetails) = _ ↔ _
          have hparse := (parseOutputMessage_encode codec junk hcanonical.1
            hlen.1).trans (congrArg (Except.map (fun array => some (m.parsed codec array))) hkeep)
          have hrest := ih { details with
            outputs := details.outputs ++ [m.parsed codec array] } hcanonical.2 hlen.2
          refine hrest.trans ?_
          constructor
          · rintro ⟨outs, houts, rfl⟩
            exact ⟨_, .cons hparse houts, by simp⟩
          · rintro ⟨outs, houts, rfl⟩
            cases houts with
            | cons hfirst houts =>
                rw [hparse] at hfirst
                cases hfirst
                exact ⟨_, houts, by simp⟩

/-- The parser's loop over the known fields. -/
theorem foldlM_known_iff
    {m : DetailsMessage} {len : ℕ} {details : BRPaymentProtocolDetails}
    (hm : m.Canonical)
    (hlen : ∀ out ∈ m.outputs, out.encode.length < 2 ^ 63) :
    m.known.foldlM (stepWire (detailsStep codec junk) len) { ctx := detailsUnread } =
        .ok details ↔
      ∃ outs, List.Forall₂ (fun m out => parseOutputMessage codec junk (some m.encode)
          m.encode.length = .ok (some out)) m.outputs outs ∧
        details = m.read outs none := by
  have hnetwork := foldlM_dataField (stepWire (detailsStep codec junk) len) detailsNetworkKey
    (fun x => ⟨keptText x, [], 0, 0, 0, none, none, none, 0, detailsUnread⟩)
    rfl (fun data => by simp only [stepWire, detailsStep, key_div_data]; rfl) m.network
  have htime := fun outs => foldlM_intField UInt64.toNat (stepWire (detailsStep codec junk) len)
    detailsTimeKey
    (fun x => ⟨keptText m.network, outs, 0, x.getD 0, 0, none, none, none, 0,
      { defaults := [false, false, false, x.isNone, true, false, false, false]
        unknown := none }⟩)
    rfl (fun v => by
      simp only [stepWire, detailsStep, key_div_varint, UInt64.ofNat_toNat]
      rfl) m.time
  have hexpires := fun outs => foldlM_intField UInt64.toNat
    (stepWire (detailsStep codec junk) len) detailsExpiresKey
    (fun x => ⟨keptText m.network, outs, 0, m.time.getD 0, x.getD 0, none, none, none, 0,
      { defaults := [false, false, false, m.time.isNone, x.isNone, false, false, false]
        unknown := none }⟩)
    rfl (fun v => by
      simp only [stepWire, detailsStep, key_div_varint, UInt64.ofNat_toNat]
      rfl) m.expires
  have hmemo := fun outs => foldlM_dataField (stepWire (detailsStep codec junk) len)
    detailsMemoKey
    (fun x => { m.read outs none with
      memo := keptText x, paymentURL := none, merchantData := none, merchDataLen := 0 })
    rfl (fun data => by simp only [stepWire, detailsStep, key_div_data]; rfl) m.memo
  have hurl := fun outs => foldlM_dataField (stepWire (detailsStep codec junk) len)
    detailsPaymentUrlKey
    (fun x => { m.read outs none with
      paymentURL := keptText x, merchantData := none, merchDataLen := 0 })
    rfl (fun data => by simp only [stepWire, detailsStep, key_div_data]; rfl) m.paymentURL
  have hdata := fun outs => foldlM_dataField (stepWire (detailsStep codec junk) len)
    detailsMerchDataKey
    (fun x => { m.read outs none with merchantData := x, merchDataLen := (x.getD []).length })
    rfl (fun data => by simp only [stepWire, detailsStep, key_div_data]; rfl) m.merchantData
  have hrest : ∀ outs, List.foldlM (stepWire (detailsStep codec junk) len)
      ⟨keptText m.network, outs, 0, 0, 0, none, none, none, 0, detailsUnread⟩
      (intField detailsTimeKey (m.time.map UInt64.toNat) ++
        (intField detailsExpiresKey (m.expires.map UInt64.toNat) ++
          (bytesField detailsMemoKey m.memo ++
            (bytesField detailsPaymentUrlKey m.paymentURL ++
              bytesField detailsMerchDataKey m.merchantData)))) = .ok (m.read outs none) := by
    intro outs
    rw [List.foldlM_append]
    refine (congrArg (· >>= _) (htime outs)).trans ?_
    rw [Machine.ok_bind, List.foldlM_append]
    refine (congrArg (· >>= _) (hexpires outs)).trans ?_
    rw [Machine.ok_bind, List.foldlM_append]
    refine (congrArg (· >>= _) (hmemo outs)).trans ?_
    rw [Machine.ok_bind, List.foldlM_append]
    refine (congrArg (· >>= _) (hurl outs)).trans ?_
    exact hdata outs
  have hfirst : m.known.foldlM (stepWire (detailsStep codec junk) len) { ctx := detailsUnread } =
      (m.outputs.map (fun out => (⟨detailsOutputsKey, .data out.encode⟩ : WireField))).foldlM
        (stepWire (detailsStep codec junk) len)
          ⟨keptText m.network, [], 0, 0, 0, none, none, none, 0, detailsUnread⟩ >>=
        fun details => List.foldlM (stepWire (detailsStep codec junk) len) details
          (intField detailsTimeKey (m.time.map UInt64.toNat) ++
            (intField detailsExpiresKey (m.expires.map UInt64.toNat) ++
              (bytesField detailsMemoKey m.memo ++
                (bytesField detailsPaymentUrlKey m.paymentURL ++
                  bytesField detailsMerchDataKey m.merchantData)))) := by
    rw [DetailsMessage.known, List.foldlM_append]
    refine (congrArg (· >>= _) hnetwork).trans ?_
    rw [Machine.ok_bind, List.foldlM_append]
  rw [hfirst, Machine.bind_eq_ok]
  constructor
  · rintro ⟨mid, hmid, hok⟩
    obtain ⟨outs, houts, rfl⟩ := (foldlM_outputs_iff _ hm.outputs hlen).mp hmid
    have hdone := (hrest outs).symm.trans hok
    cases hdone
    exact ⟨outs, houts, rfl⟩
  · rintro ⟨outs, houts, rfl⟩
    exact ⟨_, (foldlM_outputs_iff _ hm.outputs hlen).mpr ⟨outs, houts, rfl⟩, hrest outs⟩

theorem DetailsMessage.length_outputs
    {m : DetailsMessage} {out : OutputMessage}
    (hout : out ∈ m.outputs) :
    out.encode.length ≤ m.encode.length := by
  have hmem : (⟨detailsOutputsKey, .data out.encode⟩ : WireField) ∈ m.known ++ m.unknown := by
    simp only [DetailsMessage.known, List.mem_append]
    exact Or.inl (Or.inr (Or.inl (List.mem_map_of_mem hout)))
  have hle := WireField.length_encode_le hmem
  have hdata := WireField.length_data_le detailsOutputsKey out.encode
  rw [DetailsMessage.encode]
  omega

/-- The parser on details. -/
theorem parseDetails_encode_iff
    {m : DetailsMessage} {details : BRPaymentProtocolDetails}
    (hm : m.Canonical)
    (hlen : m.encode.length < 2 ^ 63) :
    parseDetails codec junk (some m.encode) m.encode.length = .ok details ↔
      ∃ outs array, List.Forall₂ (fun m out => parseOutputMessage codec junk (some m.encode)
          m.encode.length = .ok (some out)) m.outputs outs ∧
        keepFields junk m.encode.length m.unknown = .ok array ∧
        details = m.parsed outs array := by
  have hfits := fits_of_parts m.knownField_known hm.unknown hlen
  have houtputs : ∀ out ∈ m.outputs, out.encode.length < 2 ^ 63 := by
    intro out hout
    have hle := DetailsMessage.length_outputs hout
    omega
  have hunknown := fun outs => foldlM_unknown m.encode.length (m.read outs)
    (fun f hf array i data dataLen => detailsStep_unknown codec junk
      (hm.unknown.fits f hf) (hm.unknown.behind f hf) m outs array i data dataLen) none
  have hread : parseDetails codec junk (some m.encode) m.encode.length =
      m.known.foldlM (stepWire (detailsStep codec junk) m.encode.length) { ctx := detailsUnread }
        >>= fun details => (m.unknown.foldlM (stepWire (detailsStep codec junk) m.encode.length)
          details).map finishDetails := by
    rw [parseDetails, readMessage]
    change (do
      let details ← readFields (detailsStep codec junk) (some (WireField.encodeAll
        (m.known ++ m.unknown))) (WireField.encodeAll (m.known ++ m.unknown)).length
          { ctx := detailsUnread }
      return finishDetails details) = _
    rw [readFields_encodeAll _ hfits (by rw [DetailsMessage.encode] at hlen; omega),
      List.foldlM_append, ← DetailsMessage.encode]
    cases m.known.foldlM (stepWire (detailsStep codec junk) m.encode.length)
        { ctx := detailsUnread } with
    | error e =>
        rfl
    | ok details =>
        rw [Machine.ok_bind, Machine.ok_bind]
        cases m.unknown.foldlM (stepWire (detailsStep codec junk) m.encode.length) details <;> rfl
  rw [hread, Machine.bind_eq_ok]
  constructor
  · rintro ⟨mid, hmid, hok⟩
    obtain ⟨outs, houts, rfl⟩ := (foldlM_known_iff hm houtputs).mp hmid
    rw [hunknown outs, ← keepFields] at hok
    cases hkeep : keepFields junk m.encode.length m.unknown with
    | error e =>
        rw [hkeep] at hok
        cases hok
    | ok array =>
        rw [hkeep] at hok
        cases hok
        exact ⟨outs, array, houts, rfl, finishDetails_read m outs array⟩
  · rintro ⟨outs, array, houts, hkeep, rfl⟩
    refine ⟨_, (foldlM_known_iff hm houtputs).mpr ⟨outs, houts, rfl⟩, ?_⟩
    rw [hunknown outs, ← keepFields, hkeep, ← finishDetails_read]
    rfl

/-- The known fields as they are written. -/
def DetailsMessage.rewritten (junk : ℕ → UInt8) (m : DetailsMessage)
    (outs : List PaymentOutput) : List WireField :=
  textField detailsNetworkKey m.network ++
    (outs.map (fun out => ⟨detailsOutputsKey, .data (serialized junk (writeOutput out))⟩) ++
      (intField detailsTimeKey (m.time.map UInt64.toNat) ++
        (intField detailsExpiresKey (m.expires.map UInt64.toNat) ++
          (textField detailsMemoKey m.memo ++
            (textField detailsPaymentUrlKey m.paymentURL ++
              bytesField detailsMerchDataKey m.merchantData)))))

theorem cString_kept
    (str : List UInt8) :
    cString (str ++ [0]) = cString str := by
  induction str with
  | nil =>
      rfl
  | cons b str ih =>
      rw [cString, cString, List.cons_append, List.takeWhile_cons, List.takeWhile_cons]
      split
      · exact congrArg _ ih
      · rfl

/-- A string that was read is written up to its NUL. -/
theorem appends_keptText
    (str : List UInt8) (key : ℕ) :
    Appends (fun w => setString w (some (str ++ [0])) key)
      (WireField.encodeAll [⟨key, .data (cString str)⟩]) := by
  have h := appends_setString (str ++ [0]) key
  rw [cString_kept] at h
  rwa [encodeAll_singleton]

theorem appends_optionalText
    (text : Option (List UInt8)) (key : ℕ) :
    Appends (fun w => if (keptText text).isSome then setString w (keptText text) key else w)
      (WireField.encodeAll (textField key text)) := by
  cases text with
  | none =>
      exact appends_id
  | some str =>
      exact appends_keptText str key

/-- A string with a default is written unless it was absent. -/
theorem appends_defaultText
    (text : Option (List UInt8)) (default : List UInt8) (key : ℕ) :
    Appends (fun w => if text.isNone then w
        else setString w (some (text.getD default ++ [0])) key)
      (WireField.encodeAll (textField key text)) := by
  cases text with
  | none =>
      exact appends_id
  | some str =>
      exact appends_keptText str key

theorem appends_optionalBytes
    (data : Option (List UInt8)) (key : ℕ) :
    Appends (fun w => if data.isSome then setBytes w data (data.getD []).length key else w)
      (WireField.encodeAll (bytesField key data)) := by
  have h := appends_bytesField data key
  rwa [newBytes_eq] at h

/-- What is written of details that were parsed. -/
theorem appends_writeDetails_parsed
    (m : DetailsMessage) {outs : List PaymentOutput} (array : Option (List UInt8))
    (houts : ∀ out ∈ outs, Appends (writeOutput out) (serialized junk (writeOutput out))) :
    Appends (writeDetails junk (m.parsed outs array))
      (WireField.encodeAll (m.rewritten junk outs) ++ array.getD []) := by
  have hnetwork := appends_defaultText m.network mainNetwork detailsNetworkKey
  have houtputs := appends_setMessages junk detailsOutputsKey houts 0x100
  have htime := appends_intField detailsTimeKey (m.time.map UInt64.toNat)
  have hexpires := appends_intField detailsExpiresKey (m.expires.map UInt64.toNat)
  have hmemo := appends_optionalText m.memo detailsMemoKey
  have hurl := appends_optionalText m.paymentURL detailsPaymentUrlKey
  have hdata := appends_optionalBytes m.merchantData detailsMerchDataKey
  have hunknown := appends_setUnknown (m.parsed outs array).ctx
  have hwrite := (hnetwork.comp (houtputs.comp (htime.comp (hexpires.comp (hmemo.comp
    (hurl.comp hdata)))))).comp hunknown
  have hfields : WireField.encodeAll (m.rewritten junk outs) =
      WireField.encodeAll (textField detailsNetworkKey m.network) ++
        (WireField.encodeAll (outs.map (fun out =>
          ⟨detailsOutputsKey, .data (serialized junk (writeOutput out))⟩)) ++
          (WireField.encodeAll (intField detailsTimeKey (m.time.map UInt64.toNat)) ++
            (WireField.encodeAll (intField detailsExpiresKey (m.expires.map UInt64.toNat)) ++
              (WireField.encodeAll (textField detailsMemoKey m.memo) ++
                (WireField.encodeAll (textField detailsPaymentUrlKey m.paymentURL) ++
                  WireField.encodeAll (bytesField detailsMerchDataKey m.merchantData)))))) := by
    simp only [DetailsMessage.rewritten, WireField.encodeAll_append]
  rw [hfields]
  have hsame : writeDetails junk (m.parsed outs array) = fun w =>
      let w := if m.network.isNone then w
        else setString w (some (m.network.getD mainNetwork ++ [0])) detailsNetworkKey
      let w := setMessages junk detailsOutputsKey 0x100 (outs.map writeOutput) w
      let w := if (m.time.map UInt64.toNat).isNone then w
        else setInt w ((m.time.map UInt64.toNat).getD 0) detailsTimeKey
      let w := if (m.expires.map UInt64.toNat).isNone then w
        else setInt w ((m.expires.map UInt64.toNat).getD 0) detailsExpiresKey
      let w := if (keptText m.memo).isSome then setString w (keptText m.memo) detailsMemoKey else w
      let w := if (keptText m.paymentURL).isSome then
          setString w (keptText m.paymentURL) detailsPaymentUrlKey
        else w
      let w := if m.merchantData.isSome then
          setBytes w m.merchantData (m.merchantData.getD []).length detailsMerchDataKey
        else w
      setUnknown w (m.parsed outs array).ctx := by
    have htimeNone : (m.time.map UInt64.toNat).isNone = m.time.isNone := by
      cases m.time <;> rfl
    have htimeValue : (m.time.map UInt64.toNat).getD 0 = (m.time.getD 0).toNat := by
      cases m.time <;> rfl
    have hexpiresNone : (m.expires.map UInt64.toNat).isNone = m.expires.isNone := by
      cases m.expires <;> rfl
    have hexpiresValue : (m.expires.map UInt64.toNat).getD 0 = (m.expires.getD 0).toNat := by
      cases m.expires <;> rfl
    have htake : outs.take outs.length = outs := List.take_length
    rw [htimeNone, htimeValue, hexpiresNone, hexpiresValue]
    conv_rhs => rw [← htake]
    rfl
  rw [hsame]
  exact hwrite

theorem DetailsMessage.knownField_rewritten
    (m : DetailsMessage) (outs : List PaymentOutput) :
    ∀ f ∈ m.rewritten junk outs, KnownField f := by
  have hint : ∀ (arg : Option UInt64), ∀ v ∈ arg.map UInt64.toNat, v < 2 ^ 64 := by
    intro arg v hv
    obtain ⟨x, -, rfl⟩ := Option.mem_map.mp hv
    exact x.toNat_lt
  simp only [DetailsMessage.rewritten, List.forall_mem_append, List.forall_mem_map]
  exact ⟨knownField_textField (by norm_num) _, fun out _ => knownField_data (by norm_num) _,
    knownField_intField (by norm_num) (hint _), knownField_intField (by norm_num) (hint _),
    knownField_textField (by norm_num) _, knownField_textField (by norm_num) _,
    knownField_bytesField (by norm_num) _⟩

/-- The known fields are written as they were read if the strings and the outputs
are. -/
theorem DetailsMessage.rewritten_eq_iff
    (junk : ℕ → UInt8) {m : DetailsMessage} {outs : List PaymentOutput}
    (hcount : outs.length = m.outputs.length) :
    m.rewritten junk outs = m.known ↔
      TextSurvives m.network ∧
        outs.map (fun out => serialized junk (writeOutput out)) =
          m.outputs.map OutputMessage.encode ∧
        TextSurvives m.memo ∧ TextSurvives m.paymentURL := by
  have hdata : Function.Injective (fun l => (⟨detailsOutputsKey, .data l⟩ : WireField)) := by
    intro l l' h
    cases h
    rfl
  have houtputs : outs.map (fun out =>
        (⟨detailsOutputsKey, .data (serialized junk (writeOutput out))⟩ : WireField)) =
      m.outputs.map (fun out => ⟨detailsOutputsKey, .data out.encode⟩) ↔
      outs.map (fun out => serialized junk (writeOutput out)) =
        m.outputs.map OutputMessage.encode := by
    rw [← (List.map_injective_iff.mpr hdata).eq_iff, List.map_map, List.map_map]
    rfl
  rw [← textField_eq_iff detailsNetworkKey, ← textField_eq_iff detailsMemoKey,
    ← textField_eq_iff detailsPaymentUrlKey, ← houtputs, DetailsMessage.rewritten,
    DetailsMessage.known]
  constructor
  · intro h
    obtain ⟨hnetwork, h⟩ := List.append_inj h (length_textField _ _)
    obtain ⟨houts, h⟩ := List.append_inj h (by rw [List.length_map, List.length_map, hcount])
    obtain ⟨-, h⟩ := List.append_inj h rfl
    obtain ⟨-, h⟩ := List.append_inj h rfl
    obtain ⟨hmemo, h⟩ := List.append_inj h (length_textField _ _)
    obtain ⟨hurl, -⟩ := List.append_inj h (length_textField _ _)
    exact ⟨hnetwork, houts, hmemo, hurl⟩
  · rintro ⟨hnetwork, houts, hmemo, hurl⟩
    rw [hnetwork, houts, hmemo, hurl]

variable (codec junk) in
/-- Details are parsed, and written as they were. -/
def DetailsMessage.Kept (m : DetailsMessage) : Prop :=
  ∃ details, parseDetails codec junk (some m.encode) m.encode.length = .ok details ∧
    Appends (writeDetails junk details) m.encode

/-- The outputs that are parsed are written somehow. -/
theorem appends_parsed_outputs
    {outputs : List OutputMessage} {outs : List PaymentOutput}
    (hcanonical : ∀ out ∈ outputs, out.Canonical)
    (hlen : ∀ out ∈ outputs, out.encode.length < 2 ^ 63)
    (houts : List.Forall₂ (fun m out => parseOutputMessage codec junk (some m.encode)
      m.encode.length = .ok (some out)) outputs outs) :
    ∀ out ∈ outs, Appends (writeOutput out) (serialized junk (writeOutput out)) := by
  induction houts with
  | nil =>
      exact List.forall_mem_nil _
  | @cons m out outputs outs hfirst _ ih =>
      rw [List.forall_mem_cons] at hcanonical hlen
      refine List.forall_mem_cons.mpr ⟨?_, ih hcanonical.2 hlen.2⟩
      rw [parseOutputMessage_encode codec junk hcanonical.1 hlen.1] at hfirst
      cases hkeep : keepFields junk m.encode.length m.unknown with
      | error e =>
          rw [hkeep] at hfirst
          cases hfirst
      | ok array =>
          rw [hkeep] at hfirst
          cases hfirst
          have hwrite := appends_writeOutput_parsed codec m array
          rwa [serialized_eq junk hwrite]

/-- Outputs are all written as they were if each of them is kept. -/
theorem map_serialized_iff
    {outputs : List OutputMessage} {outs : List PaymentOutput}
    (houts : List.Forall₂ (fun m out => parseOutputMessage codec junk (some m.encode)
      m.encode.length = .ok (some out)) outputs outs)
    (hwrite : ∀ out ∈ outs, Appends (writeOutput out) (serialized junk (writeOutput out))) :
    outs.map (fun out => serialized junk (writeOutput out)) =
        outputs.map OutputMessage.encode ↔
      ∀ out ∈ outputs, out.Kept codec junk := by
  induction houts with
  | nil =>
      simp
  | @cons m out outputs outs hfirst _ ih =>
      rw [List.forall_mem_cons] at hwrite
      rw [List.map_cons, List.map_cons, List.cons.injEq, ih hwrite.2, List.forall_mem_cons]
      refine and_congr_left fun _ => ?_
      constructor
      · intro h
        have hout := hwrite.1
        rw [h] at hout
        exact ⟨out, hfirst, hout⟩
      · rintro ⟨out', hparse, hout⟩
        rw [hfirst] at hparse
        cases hparse
        exact serialized_eq junk hout

theorem forall₂_of_kept
    {outputs : List OutputMessage}
    (hkept : ∀ out ∈ outputs, out.Kept codec junk) :
    ∃ outs, List.Forall₂ (fun m out => parseOutputMessage codec junk (some m.encode)
      m.encode.length = .ok (some out)) outputs outs := by
  induction outputs with
  | nil =>
      exact ⟨[], .nil⟩
  | cons m outputs ih =>
      rw [List.forall_mem_cons] at hkept
      obtain ⟨out, hparse, -⟩ := hkept.1
      obtain ⟨outs, houts⟩ := ih hkept.2
      exact ⟨out :: outs, .cons hparse houts⟩

theorem DetailsMessage.kept_iff
    (codec : ScriptCodec) (junk : ℕ → UInt8) {m : DetailsMessage}
    (hm : m.Canonical)
    (hlen : m.encode.length < 2 ^ 63) :
    m.Kept codec junk ↔ m.Survives := by
  have houtputs : ∀ out ∈ m.outputs, out.encode.length < 2 ^ 63 := by
    intro out hout
    have hle := DetailsMessage.length_outputs hout
    omega
  have hunknown : (WireField.encodeAll m.unknown).length < 2 ^ 63 := by
    have hlen' := hlen
    rw [DetailsMessage.encode, WireField.encodeAll_append, List.length_append] at hlen'
    omega
  have hkeep := keepFields_iff junk m.encode.length hm.unknown.fits
    hm.unknown.keys_ascending hunknown
  have hlengths : ∀ {outs : List PaymentOutput}, outs.length = m.outputs.length →
      (m.rewritten junk outs).length = m.known.length := by
    intro outs hcount
    simp only [DetailsMessage.rewritten, DetailsMessage.known, List.length_append,
      length_textField, List.length_map, hcount]
  have hsurvive : ∀ out ∈ m.outputs, out.Kept codec junk ↔ out.Survives := fun out hout =>
    OutputMessage.kept_iff (hm.outputs out hout) (houtputs out hout)
  constructor
  · rintro ⟨details, hparse, hwrite⟩
    obtain ⟨outs, array, houts, harray, rfl⟩ := (parseDetails_encode_iff hm hlen).mp hparse
    have hwritten := appends_parsed_outputs hm.outputs houtputs houts
    have hcount := houts.length_eq.symm
    have hbytes := appends_unique (appends_writeDetails_parsed m array hwritten) hwrite
    obtain ⟨hknown, hrest⟩ := (encodeAll_parts_iff _ (hlengths hcount)
      (m.knownField_rewritten outs) m.knownField_known hlen).mp hbytes
    obtain ⟨hnetwork, hout, hmemo, hurl⟩ := (DetailsMessage.rewritten_eq_iff junk hcount).mp hknown
    have hkept := (map_serialized_iff houts hwritten).mp hout
    exact ⟨hnetwork, fun out hmem => (hsurvive out hmem).mp (hkept out hmem), hmemo, hurl,
      hkeep.mp ⟨array, harray, hrest⟩⟩
  · intro h
    have hkept : ∀ out ∈ m.outputs, out.Kept codec junk := fun out hmem =>
      (hsurvive out hmem).mpr (h.outputs out hmem)
    obtain ⟨outs, houts⟩ := forall₂_of_kept hkept
    obtain ⟨array, harray, hrest⟩ := hkeep.mpr h.unknown
    have hwritten := appends_parsed_outputs hm.outputs houtputs houts
    have hcount := houts.length_eq.symm
    have hknown := (DetailsMessage.rewritten_eq_iff junk hcount).mpr
      ⟨h.network, (map_serialized_iff houts hwritten).mpr hkept, h.memo, h.paymentURL⟩
    have hwrite := appends_writeDetails_parsed m array hwritten
    have hbytes := (encodeAll_parts_iff _ (hlengths hcount)
      (m.knownField_rewritten outs) m.knownField_known hlen).mpr ⟨hknown, hrest⟩
    rw [hbytes] at hwrite
    exact ⟨_, (parseDetails_encode_iff hm hlen).mpr ⟨outs, array, houts, harray, rfl⟩, hwrite⟩

end Details

end BreadwalletCore
