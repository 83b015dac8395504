import BreadwalletCore.PaymentProtocol.Request
import BreadwalletCore.Transaction.RoundTrip

/-!
# Payments

`BRPaymentProtocolPaymentNew`, `BRPaymentProtocolPaymentParse` and
`BRPaymentProtocolPaymentSerialize`.
-/

namespace BreadwalletCore

open ProtoBuf

abbrev paymentMerchDataKey : ℕ := 1
abbrev paymentTransactionsKey : ℕ := 2
abbrev paymentRefundToKey : ℕ := 3
abbrev paymentMemoKey : ℕ := 4

structure BRPaymentProtocolPayment where
  merchantData : Option (List UInt8) := none
  merchDataLen : ℕ := 0
  transactions : List RawTransaction := []
  txCount : ℕ := 0
  refundTo : List PaymentOutput := []
  refundToCount : ℕ := 0
  memo : Option (List UInt8) := none
  ctx : ProtoBufContext
deriving DecidableEq

/-- The arguments of `BRPaymentProtocolPaymentNew`; without transactions the array
may be `NULL`. -/
structure PaymentArgs where
  merchantData : Option (List UInt8) := none
  transactions : List RawTransaction := []
  refundTo : List (UInt64 × Address) := []
  memo : Option (List UInt8) := none
deriving DecidableEq

/-- `BRPaymentProtocolPaymentNew` -/
def newPayment (codec : ScriptCodec) (args : PaymentArgs) : BRPaymentProtocolPayment where
  merchantData := (newBytes args.merchantData).1
  merchDataLen := (newBytes args.merchantData).2
  transactions := args.transactions
  txCount := args.transactions.length
  refundTo := args.refundTo.map (fun r =>
    newPaymentOutput codec r.1 (codec.addressScriptPubKey r.2))
  refundToCount := args.refundTo.length
  memo := newString args.memo
  ctx := newContext (paymentMerchDataKey + 1)

/-- `BRTransactionParse` on a field. -/
def parseTransactionField (codec : ScriptCodec) (sha256d : List UInt8 → UInt256)
    (data : Option (List UInt8)) (dataLen : ℕ) : Except ProtoBufFault (Option RawTransaction) :=
  match data with
  | none => if dataLen = 0 then .ok none else .error .assertion
  | some buf =>
      match parse codec sha256d buf with
      | .ok parsed => .ok (parsed.map Prod.fst)
      | .error _ => .error .invalidRead

/-- The body of the loop of `BRPaymentProtocolPaymentParse`. -/
def paymentStep (codec : ScriptCodec) (sha256d : List UInt8 → UInt256) (junk : ℕ → UInt8) :
    FieldStep BRPaymentProtocolPayment :=
  fun payment key i data dataLen =>
    match key / 8 with
    | 1 => .ok { payment with
        merchantData := (bytes payment.merchantData data dataLen).1
        merchDataLen := (bytes payment.merchantData data dataLen).2 }
    | 2 => do
        let tx ← parseTransactionField codec sha256d data dataLen
        return { payment with transactions := payment.transactions ++ tx.toList }
    | 3 => do
        let out ← parseOutputMessage codec junk data dataLen
        return { payment with refundTo := payment.refundTo ++ out.toList }
    | 4 => .ok { payment with memo := string payment.memo data dataLen }
    | _ => do
        let ctx ← payment.ctx.addUnknown junk key i data dataLen
        return { payment with ctx := ctx }

/-- The end of `BRPaymentProtocolPaymentParse`. -/
def finishPayment (payment : BRPaymentProtocolPayment) : BRPaymentProtocolPayment :=
  { payment with
    txCount := payment.transactions.length
    refundToCount := payment.refundTo.length }

/-- `BRPaymentProtocolPaymentParse` -/
def parsePayment (codec : ScriptCodec) (sha256d : List UInt8 → UInt256) (junk : ℕ → UInt8)
    (buf : Option (List UInt8)) (bufLen : ℕ) :
    Except ProtoBufFault BRPaymentProtocolPayment := do
  let payment ← readMessage (paymentStep codec sha256d junk) buf bufLen
    { ctx := newContext (paymentMerchDataKey + 1) }
  return finishPayment payment

/-- The transactions of a payment, each through a buffer of its own. -/
def writeTransactions (transactions : List RawTransaction) (w : ByteWriter UInt8) :
    ByteWriter UInt8 :=
  transactions.foldl
    (fun w tx => setBytes w (some tx.serialize) tx.serialize.length paymentTransactionsKey) w

/-- `BRPaymentProtocolPaymentSerialize` -/
def writePayment (junk : ℕ → UInt8) (payment : BRPaymentProtocolPayment) (w : ByteWriter UInt8) :
    ByteWriter UInt8 :=
  let w := if payment.merchantData.isSome then
      setBytes w payment.merchantData payment.merchDataLen paymentMerchDataKey
    else w
  let w := writeTransactions (payment.transactions.take payment.txCount) w
  let w := setMessages junk paymentRefundToKey 0
    ((payment.refundTo.take payment.refundToCount).map writeOutput) w
  let w := if payment.memo.isSome then setString w payment.memo paymentMemoKey else w
  setUnknown w payment.ctx

end BreadwalletCore
