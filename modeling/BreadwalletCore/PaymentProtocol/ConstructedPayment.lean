import BreadwalletCore.PaymentProtocol.Constructed
import BreadwalletCore.Transaction.Inputs

/-!
# Payments that are constructed

The transactions of a payment come back as `BRTransactionParse` reads them, and
everything else as it was.
-/

namespace BreadwalletCore

open ProtoBuf ByteWriter
open RawTransaction (content outputContent RoundTrips Unambiguous SignedOrSpendable noAddressCodec)

section Payments

variable (codec : ScriptCodec) (sha256d : List UInt8 → UInt256) (junk : ℕ → UInt8)

/-- The field of a refund output. -/
def refundField (refund : UInt64 × Address) : WireField :=
  ⟨paymentRefundToKey, .data (WireField.encodeAll
    (outputFields refund.1 (codec.addressScriptPubKey refund.2)))⟩

/-- The field of a transaction. -/
def transactionField (tx : RawTransaction) : WireField :=
  ⟨paymentTransactionsKey, .data tx.serialize⟩

/-- The fields that are written of a constructed payment. -/
def paymentFields (args : PaymentArgs) : List WireField :=
  bytesField paymentMerchDataKey args.merchantData ++
    (args.transactions.map transactionField ++
      (args.refundTo.map (refundField codec) ++ textField paymentMemoKey args.memo))

theorem appends_writeTransactions
    (txs : List RawTransaction) :
    Appends (writeTransactions txs) (WireField.encodeAll (txs.map transactionField)) := by
  have hall : Appends (writeTransactions txs)
      (txs.flatMap (fun tx => (transactionField tx).encode)) :=
    appends_foldl (fun tx _ => appends_setBytes_all tx.serialize paymentTransactionsKey)
  rw [WireField.encodeAll, List.flatMap_map]
  exact hall

theorem appends_writePayment
    (args : PaymentArgs) :
    Appends (writePayment junk (newPayment codec args))
      (WireField.encodeAll (paymentFields codec args)) := by
  have hdata := appends_bytesField args.merchantData paymentMerchDataKey
  have htxs := appends_writeTransactions args.transactions
  have hrefunds := appends_setMessages junk paymentRefundToKey
    (fun (refund : UInt64 × Address) (_ : refund ∈ args.refundTo) =>
      appends_writeOutput codec refund.1 (codec.addressScriptPubKey refund.2)) 0
  have hmemo := appends_textField args.memo paymentMemoKey
  have hwrite := hdata.comp (htxs.comp (hrefunds.comp hmemo))
  have hsame : writePayment junk (newPayment codec args) = fun w =>
      let w := if (newBytes args.merchantData).1.isSome then
          setBytes w (newBytes args.merchantData).1 (newBytes args.merchantData).2
            paymentMerchDataKey
        else w
      let w := writeTransactions args.transactions w
      let w := setMessages junk paymentRefundToKey 0 (args.refundTo.map (fun refund =>
        writeOutput (newPaymentOutput codec refund.1 (codec.addressScriptPubKey refund.2)))) w
      if (newString args.memo).isSome then setString w (newString args.memo) paymentMemoKey
      else w := by
    funext w
    rw [writePayment]
    simp only [newPayment, List.take_of_length_le, List.length_map, le_refl,
      List.map_map, setUnknown, newContext]
    rfl
  rw [hsame, paymentFields, WireField.encodeAll_append, WireField.encodeAll_append,
    WireField.encodeAll_append]
  exact hwrite

/-- How a transaction comes back from its field. -/
def readBack (tx : RawTransaction) : Except ProtoBufFault (Option RawTransaction) :=
  parseTransactionField codec sha256d (some tx.serialize) tx.serialize.length

variable {codec sha256d junk}

/-- The parser's loop over the transactions: those that are not read are left
out. -/
theorem foldlM_transactions_iff
    {txs : List RawTransaction} {len : ℕ} {payment payment' : BRPaymentProtocolPayment} :
    (txs.map transactionField).foldlM (stepWire (paymentStep codec sha256d junk) len) payment =
        .ok payment' ↔
      ∃ read, List.Forall₂ (fun tx o => readBack codec sha256d tx = .ok o) txs read ∧
        payment' = { payment with
          transactions := payment.transactions ++ read.flatMap Option.toList } := by
  induction txs generalizing payment with
  | nil =>
      constructor
      · intro h
        cases h
        exact ⟨[], .nil, by simp⟩
      · rintro ⟨read, hread, rfl⟩
        cases hread
        simp
        rfl
  | cons tx txs ih =>
      have hstep : stepWire (paymentStep codec sha256d junk) len payment (transactionField tx) =
          readBack codec sha256d tx >>= fun o =>
            .ok { payment with transactions := payment.transactions ++ o.toList } := by
        simp only [stepWire, transactionField, paymentStep, key_div_data]
        rfl
      rw [List.map_cons, List.foldlM_cons, hstep]
      cases hread : readBack codec sha256d tx with
      | error e =>
          constructor
          · intro h
            cases h
          · rintro ⟨read, hall, -⟩
            cases hall with
            | cons hfirst _ =>
                rw [hread] at hfirst
                cases hfirst
      | ok o =>
          rw [Machine.ok_bind, Machine.ok_bind, ih]
          constructor
          · rintro ⟨read, hall, rfl⟩
            refine ⟨o :: read, .cons hread hall, ?_⟩
            simp
          · rintro ⟨read, hall, rfl⟩
            cases hall with
            | cons hfirst hall =>
                rw [hread] at hfirst
                cases hfirst
                refine ⟨_, hall, ?_⟩
                simp

/-- The parser's loop over the refund outputs. -/
theorem foldlM_refunds
    {refunds : List (UInt64 × Address)} {len : ℕ}
    (hlen : ∀ refund ∈ refunds, (WireField.encodeAll
      (outputFields refund.1 (codec.addressScriptPubKey refund.2))).length < 2 ^ 63)
    (payment : BRPaymentProtocolPayment) :
    (refunds.map (refundField codec)).foldlM (stepWire (paymentStep codec sha256d junk) len)
        payment =
      .ok { payment with
        refundTo := payment.refundTo ++ refunds.map (fun refund =>
          newPaymentOutput codec refund.1 (codec.addressScriptPubKey refund.2)) } := by
  induction refunds generalizing payment with
  | nil =>
      simp
      rfl
  | cons refund refunds ih =>
      rw [List.forall_mem_cons] at hlen
      have hstep : stepWire (paymentStep codec sha256d junk) len payment
          (refundField codec refund) =
          .ok { payment with
            refundTo := payment.refundTo ++
              [newPaymentOutput codec refund.1 (codec.addressScriptPubKey refund.2)] } := by
        simp only [stepWire, refundField, paymentStep, key_div_data]
        rw [parseOutputMessage_outputFields codec junk hlen.1, Machine.ok_bind]
        rfl
      rw [List.map_cons, List.foldlM_cons, hstep, Machine.ok_bind, ih hlen.2]
      simp

variable (codec sha256d junk) in
/-- The bytes of a constructed payment. -/
def paymentBytes (args : PaymentArgs) : List UInt8 :=
  serialized junk (writePayment junk (newPayment codec args))

theorem paymentBytes_eq
    (args : PaymentArgs) :
    paymentBytes codec junk args = WireField.encodeAll (paymentFields codec args) :=
  serialized_eq junk (appends_writePayment codec junk args)

/-- The data of a field is not longer than the payment. -/
theorem length_le_paymentBytes
    (junk : ℕ → UInt8) {args : PaymentArgs} {key : ℕ} {data : List UInt8}
    (hmem : (⟨key, .data data⟩ : WireField) ∈ paymentFields codec args) :
    data.length ≤ (paymentBytes codec junk args).length := by
  have hle := WireField.length_encode_le hmem
  have hdata := WireField.length_data_le key data
  rw [paymentBytes_eq]
  omega

/-- The payment that is parsed when the transactions are read as `read`. -/
def parsedPayment (codec : ScriptCodec) (args : PaymentArgs)
    (read : List (Option RawTransaction)) : BRPaymentProtocolPayment where
  merchantData := args.merchantData
  merchDataLen := (args.merchantData.getD []).length
  transactions := read.flatMap Option.toList
  txCount := (read.flatMap Option.toList).length
  refundTo := args.refundTo.map (fun refund =>
    newPaymentOutput codec refund.1 (codec.addressScriptPubKey refund.2))
  refundToCount := args.refundTo.length
  memo := newString args.memo
  ctx := newContext (paymentMerchDataKey + 1)

/-- What is parsed from the bytes of a constructed payment. -/
theorem parsePayment_paymentBytes_iff
    {args : PaymentArgs} {payment : BRPaymentProtocolPayment}
    (hlen : (paymentBytes codec junk args).length < 2 ^ 63) :
    parsePayment codec sha256d junk (some (paymentBytes codec junk args))
        (paymentBytes codec junk args).length = .ok payment ↔
      ∃ read, List.Forall₂ (fun tx o => readBack codec sha256d tx = .ok o) args.transactions
          read ∧
        payment = parsedPayment codec args read := by
  have hrefundLen : ∀ refund ∈ args.refundTo, (WireField.encodeAll
      (outputFields refund.1 (codec.addressScriptPubKey refund.2))).length < 2 ^ 63 := by
    intro refund hrefund
    have hmem : refundField codec refund ∈ paymentFields codec args := by
      simp only [paymentFields, List.mem_append]
      exact Or.inr (Or.inr (Or.inl (List.mem_map_of_mem hrefund)))
    have hle := length_le_paymentBytes junk hmem
    omega
  have hknown : ∀ f ∈ paymentFields codec args, KnownField f := by
    simp only [paymentFields, List.forall_mem_append, List.forall_mem_map]
    exact ⟨knownField_bytesField (by norm_num) _, fun tx _ => knownField_data (by norm_num) _,
      fun refund _ => knownField_data (by norm_num) _, knownField_textField (by norm_num) _⟩
  rw [paymentBytes_eq] at hlen ⊢
  generalize hfields : (WireField.encodeAll (paymentFields codec args)).length = len
  have hdata := foldlM_bytesField
    (stepWire (paymentStep codec sha256d junk) len) paymentMerchDataKey
    (fun x => ⟨x.1, x.2, [], 0, [], 0, none, newContext (paymentMerchDataKey + 1)⟩)
    rfl (fun data => by simp only [stepWire, paymentStep, key_div_data]; rfl) args.merchantData
  have hmemo := fun (txs : List RawTransaction) (refunds : List PaymentOutput) =>
    foldlM_textField
      (stepWire (paymentStep codec sha256d junk) len) paymentMemoKey
      (fun x => ⟨args.merchantData, (args.merchantData.getD []).length, txs, 0, refunds, 0, x,
        newContext (paymentMerchDataKey + 1)⟩)
      rfl (fun str => by simp only [stepWire, paymentStep, key_div_data]; rfl) args.memo
  rw [newBytes_eq] at hdata
  rw [parsePayment, ← hfields, readMessage_encodeAll _ hlen hknown, hfields, paymentFields,
    List.foldlM_append, hdata, Machine.ok_bind, List.foldlM_append]
  have hrest : ∀ read : List (Option RawTransaction),
      (args.refundTo.map (refundField codec) ++ textField paymentMemoKey args.memo).foldlM
        (stepWire (paymentStep codec sha256d junk) len)
        ⟨args.merchantData, (args.merchantData.getD []).length, read.flatMap Option.toList, 0, [],
          0, none, newContext (paymentMerchDataKey + 1)⟩ =
      .ok { parsedPayment codec args read with txCount := 0, refundToCount := 0 } := by
    intro read
    rw [List.foldlM_append, foldlM_refunds hrefundLen, Machine.ok_bind, List.nil_append, hmemo]
    rfl
  have hfinish : ∀ read, finishPayment
      { parsedPayment codec args read with txCount := 0, refundToCount := 0 } =
        parsedPayment codec args read := by
    intro read
    simp [finishPayment, parsedPayment]
  cases htxs : (args.transactions.map transactionField).foldlM
      (stepWire (paymentStep codec sha256d junk) len)
      ⟨args.merchantData, (args.merchantData.getD []).length, [], 0, [], 0, none,
        newContext (paymentMerchDataKey + 1)⟩ with
  | error e =>
      constructor
      · intro h
        cases h
      · rintro ⟨read, hall, -⟩
        rw [foldlM_transactions_iff.mpr ⟨read, hall, rfl⟩] at htxs
        cases htxs
  | ok payment' =>
      obtain ⟨read, hall, rfl⟩ := foldlM_transactions_iff.mp htxs
      rw [Machine.ok_bind]
      dsimp only
      rw [List.nil_append, hrest, Machine.ok_bind, hfinish]
      constructor
      · intro h
        cases h
        exact ⟨read, hall, rfl⟩
      · rintro ⟨read', hall', rfl⟩
        have hunique : Relator.RightUnique
            (fun tx o => readBack codec sha256d tx = Except.ok o) := by
          intro tx o o' h h'
          rw [h] at h'
          cases h'
          rfl
        rw [hunique.forall₂ hall' hall]
        rfl

/-- Two transactions agree in all that is serialized. -/
structure SameTransaction (tx' tx : RawTransaction) : Prop where
  version : tx'.version = tx.version
  inputs : tx'.inputs.map content = tx.inputs.map content
  outputs : tx'.outputs.map outputContent = tx.outputs.map outputContent
  lockTime : tx'.lockTime = tx.lockTime
  isSigned : tx'.isSigned = tx.isSigned

theorem roundTrips_iff_readBack
    {tx : RawTransaction} :
    RoundTrips codec sha256d tx ↔
      ∃ tx', readBack codec sha256d tx = .ok (some tx') ∧ SameTransaction tx' tx := by
  rw [RoundTrips, readBack, parseTransactionField]
  constructor
  · rintro ⟨tx', n, hparse, hversion, hinputs, houtputs, hlock, hsigned⟩
    refine ⟨tx', ?_, hversion, hinputs, houtputs, hlock, hsigned⟩
    rw [hparse]
    rfl
  · rintro ⟨tx', hread, hversion, hinputs, houtputs, hlock, hsigned⟩
    cases hparse : parse codec sha256d tx.serialize with
    | error e =>
        rw [hparse] at hread
        cases hread
    | ok parsed =>
        rw [hparse] at hread
        cases parsed with
        | none =>
            cases hread
        | some parsed =>
            cases hread
            exact ⟨parsed.1, parsed.2, rfl, hversion, hinputs, houtputs, hlock, hsigned⟩

/-- If as many transactions come back as there are, in their order and with their
content, each of them does. -/
theorem roundTrips_of_forall₂
    {txs : List RawTransaction} {read : List (Option RawTransaction)}
    (hread : List.Forall₂ (fun tx o => readBack codec sha256d tx = .ok o) txs read)
    (hsame : List.Forall₂ SameTransaction (read.flatMap Option.toList) txs) :
    ∀ tx ∈ txs, RoundTrips codec sha256d tx := by
  induction hread with
  | nil =>
      exact List.forall_mem_nil _
  | @cons tx o txs read hfirst hrest ih =>
      cases o with
      | none =>
          have hlen := hsame.length_eq
          have hle : (read.flatMap Option.toList).length ≤ read.length := by
            clear hsame hlen ih hrest
            induction read with
            | nil =>
                exact Nat.le_refl 0
            | cons o read ih =>
                cases o with
                | none =>
                    exact Nat.le_succ_of_le ih
                | some tx =>
                    exact Nat.succ_le_succ ih
          have hcount := hrest.length_eq
          rw [List.flatMap_cons, Option.toList_none, List.nil_append, List.length_cons] at hlen
          omega
      | some tx' =>
          cases hsame with
          | cons hsameFirst hsameRest =>
              exact List.forall_mem_cons.mpr
                ⟨roundTrips_iff_readBack.mpr ⟨tx', hfirst, hsameFirst⟩, ih hsameRest⟩

/-- Transactions that come back one by one come back together. -/
theorem forall₂_of_roundTrips
    {txs : List RawTransaction}
    (htxs : ∀ tx ∈ txs, RoundTrips codec sha256d tx) :
    ∃ read, List.Forall₂ (fun tx o => readBack codec sha256d tx = .ok o) txs read ∧
      List.Forall₂ SameTransaction (read.flatMap Option.toList) txs := by
  induction txs with
  | nil =>
      exact ⟨[], .nil, .nil⟩
  | cons tx txs ih =>
      rw [List.forall_mem_cons] at htxs
      obtain ⟨tx', hread, hsame⟩ := roundTrips_iff_readBack.mp htxs.1
      obtain ⟨read, hall, hsames⟩ := ih htxs.2
      exact ⟨some tx' :: read, .cons hread hall, .cons hsame hsames⟩

/-- A payment has the content of the arguments. -/
structure SamePayment (codec : ScriptCodec) (payment : BRPaymentProtocolPayment)
    (args : PaymentArgs) : Prop where
  merchantData : payment.merchantData = args.merchantData
  merchDataLen : payment.merchDataLen = (args.merchantData.getD []).length
  transactions : List.Forall₂ SameTransaction payment.transactions args.transactions
  txCount : payment.txCount = args.transactions.length
  refundTo : payment.refundTo.map (fun out => (out.amount, out.script)) =
    args.refundTo.map (fun refund => (refund.1, some (codec.addressScriptPubKey refund.2)))
  refundToCount : payment.refundToCount = args.refundTo.length
  memo : payment.memo = newString args.memo

variable (codec sha256d junk) in
/-- A constructed payment is parsed from its bytes with the content of the
arguments. -/
def PaymentKept (args : PaymentArgs) : Prop :=
  ∃ payment, parsePayment codec sha256d junk (some (paymentBytes codec junk args))
      (paymentBytes codec junk args).length = .ok payment ∧
    SamePayment codec payment args

/-- A constructed payment keeps its content if and only if each of its transactions
comes back from its bytes. -/
theorem paymentKept_iff
    {args : PaymentArgs}
    (hlen : (paymentBytes codec junk args).length < 2 ^ 63) :
    PaymentKept codec sha256d junk args ↔
      ∀ tx ∈ args.transactions, RoundTrips codec sha256d tx := by
  rw [PaymentKept]
  constructor
  · rintro ⟨payment, hparse, hsame⟩
    obtain ⟨read, hread, rfl⟩ := (parsePayment_paymentBytes_iff hlen).mp hparse
    exact roundTrips_of_forall₂ hread hsame.transactions
  · intro htxs
    obtain ⟨read, hread, hsame⟩ := forall₂_of_roundTrips htxs
    refine ⟨_, (parsePayment_paymentBytes_iff hlen).mpr ⟨read, hread, rfl⟩, rfl, rfl, hsame,
      hsame.length_eq, ?_, rfl, rfl⟩
    rw [parsedPayment, List.map_map]
    rfl

/-- **Constructed messages.**  A request keeps its content if and only if it has no
outputs.  A payment keeps its content if and only if each of its transactions comes
back, that is, where the inputs are signed or have a recognised script, if no
signature looks like a scriptPubKey and every unsigned input has an amount. -/
theorem constructed_kept_iff
    (codec : ScriptCodec) (sha256d : List UInt8 → UInt256) (junk : ℕ → UInt8)
    (request : RequestArgs) (details : DetailsArgs) (payment : PaymentArgs)
    (hrequest : (requestBytes codec junk request details).length < 2 ^ 63)
    (hpayment : (paymentBytes codec junk payment).length < 2 ^ 63) :
    (RequestKept codec junk request details ↔ details.outputs = []) ∧
      (PaymentKept codec sha256d junk payment ↔
        ∀ tx ∈ payment.transactions, RoundTrips codec sha256d tx) ∧
      ((∀ tx ∈ payment.transactions, tx.inputs ≠ [] ∧ SignedOrSpendable tx) →
        (PaymentKept codec sha256d junk payment ↔
          ∀ tx ∈ payment.transactions, ∀ input ∈ tx.inputs, Unambiguous input)) := by
  have hkept : PaymentKept codec sha256d junk payment ↔
      ∀ tx ∈ payment.transactions, RoundTrips codec sha256d tx :=
    paymentKept_iff hpayment
  refine ⟨requestKept_iff hrequest, hkept, fun hplain => hkept.trans ?_⟩
  refine forall₂_congr fun tx htx => ?_
  obtain ⟨hne, hspend⟩ := hplain tx htx
  have hmem : transactionField tx ∈ paymentFields codec payment := by
    simp only [paymentFields, List.mem_append]
    exact Or.inr (Or.inl (List.mem_map_of_mem htx))
  have hle := length_le_paymentBytes junk hmem
  have hsize : tx.serialize.length < 2 ^ 63 := by
    omega
  exact ⟨RawTransaction.unambiguous_of_roundTrips codec sha256d hsize hspend,
    RawTransaction.roundTrips_of_unambiguous codec sha256d hsize hne hspend⟩

/-- A request for test money without outputs, and a payment without transactions. -/
theorem constructed_kept_without_outputs :
    RequestKept noAddressCodec (fun _ => 0xaa) { version := 2, signature := some [1, 2, 3] }
        { network := some [0x74, 0x65, 0x73, 0x74], time := 300, merchantData := some [7] } ∧
      PaymentKept noAddressCodec (fun _ => 0) (fun _ => 0xaa)
        { merchantData := some [7], memo := some [0x6f, 0x6b] } := by
  have h := constructed_kept_iff noAddressCodec (fun _ => 0) (fun _ => 0xaa)
    { version := 2, signature := some [1, 2, 3] }
    { network := some [0x74, 0x65, 0x73, 0x74], time := 300, merchantData := some [7] }
    { merchantData := some [7], memo := some [0x6f, 0x6b] }
    (by decide +kernel) (by decide +kernel)
  exact ⟨h.1.mpr rfl, h.2.1.mpr (List.forall_mem_nil _)⟩

/-- The output of a request is lost. -/
theorem constructed_output_lost :
    let request : RequestArgs := { version := 1 }
    let details : DetailsArgs := { outputs := [(5000, [0x51])], time := 300 }
    (requestBytes noAddressCodec (fun _ => 0xaa) request details).length < 2 ^ 63 ∧
      (parseRequest noAddressCodec (fun _ => 0xaa)
          (some (requestBytes noAddressCodec (fun _ => 0xaa) request details))
          (requestBytes noAddressCodec (fun _ => 0xaa) request details).length).map
        (fun req => (req.bind (fun req => req.details)).map (fun d => d.outCount)) =
        .ok (some 0) ∧
      ¬ RequestKept noAddressCodec (fun _ => 0xaa) request details := by
  intro request details
  have hlen : (requestBytes noAddressCodec (fun _ => 0xaa) request details).length < 2 ^ 63 := by
    decide +kernel
  refine ⟨hlen, by decide +kernel, ?_⟩
  rw [requestKept_iff hlen]
  exact List.cons_ne_nil _ _

end Payments

end BreadwalletCore
