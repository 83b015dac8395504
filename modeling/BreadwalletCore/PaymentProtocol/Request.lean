import BreadwalletCore.PaymentProtocol.Fields
import BreadwalletCore.Transaction.Script

/-!
# Payment requests

`_BRPaymentProtocolOutput`, the details and the request of
`BRPaymentProtocol.c`: their construction, parsing and serialization.

A string is kept with a NUL behind it.  Arguments that are C strings end at their
first NUL.  The context of an output, which the code keeps behind the bytes of
the script, is a field of its own.
-/

namespace BreadwalletCore

open ProtoBuf

/-- A context without defaults. -/
def newContext (count : ℕ) : ProtoBufContext where
  defaults := List.replicate count false
  unknown := none

namespace ProtoBufContext

def isDefault (ctx : ProtoBufContext) (key : ℕ) : Bool :=
  ctx.defaults.getD key false

def setDefault (ctx : ProtoBufContext) (key : ℕ) (flag : Bool) : ProtoBufContext :=
  { ctx with defaults := ctx.defaults.set key flag }

/-- `_ProtoBufUnknown` on the context. -/
def addUnknown (junk : ℕ → UInt8) (ctx : ProtoBufContext) (key i : ℕ)
    (data : Option (List UInt8)) (dataLen : ℕ) : Except ProtoBufFault ProtoBufContext := do
  let unknown ← ProtoBuf.unknown junk ctx.unknown key i data dataLen
  return { ctx with unknown := some unknown }

end ProtoBufContext

/-- The string behind an argument of type `const char *`. -/
def newString (arg : Option (List UInt8)) : Option (List UInt8) :=
  match arg with
  | some str => string none (some (cString str)) (cString str).length
  | none => none

/-- A string with a default. -/
def newStringOr (arg : Option (List UInt8)) (default : List UInt8) : Option (List UInt8) :=
  match arg with
  | some str => string none (some (cString str)) (cString str).length
  | none => string none (some default) default.length

/-- The array behind an argument with its length; its count is 0 without one. -/
def newBytes (arg : Option (List UInt8)) : Option (List UInt8) × ℕ :=
  match arg with
  | some data => bytes none (some data) data.length
  | none => (none, 0)

/-! ## Outputs -/

abbrev outputAmountKey : ℕ := 1
abbrev outputScriptKey : ℕ := 2

/-- A `BRTxOutput` of a message with its context. -/
structure PaymentOutput where
  address : Address := []
  amount : UInt64 := 0
  script : Option (List UInt8) := none
  ctx : ProtoBufContext
deriving DecidableEq

/-- `BRTxOutputSetScript` -/
def PaymentOutput.setScript (codec : ScriptCodec) (out : PaymentOutput)
    (script : Option (List UInt8)) : PaymentOutput :=
  { out with script := script, address := script.elim [] codec.addressFromScriptPubKey }

/-- `_BRPaymentProtocolOutput` -/
def newPaymentOutput (codec : ScriptCodec) (amount : UInt64) (script : List UInt8) :
    PaymentOutput :=
  PaymentOutput.setScript codec
    { amount := amount, ctx := newContext (outputScriptKey + 1) } (some script)

/-- The body of the loop of `_BRPaymentProtocolOutputParse`. -/
def outputStep (codec : ScriptCodec) (junk : ℕ → UInt8) : FieldStep PaymentOutput :=
  fun out key i data dataLen =>
    match key / 8 with
    | 1 => .ok { out with amount := UInt64.ofNat i, ctx := out.ctx.setDefault outputAmountKey false }
    | 2 => .ok (out.setScript codec data)
    | _ => do
        let ctx ← out.ctx.addUnknown junk key i data dataLen
        return { out with ctx := ctx }

/-- `_BRPaymentProtocolOutputParse`; a script is required. -/
def parseOutputMessage (codec : ScriptCodec) (junk : ℕ → UInt8) (buf : Option (List UInt8))
    (bufLen : ℕ) : Except ProtoBufFault (Option PaymentOutput) := do
  let out ← readFields (outputStep codec junk) buf bufLen
    { ctx := (newContext (outputScriptKey + 1)).setDefault outputAmountKey true }
  return if out.script.isNone then none else some out

/-- `_BRPaymentProtocolOutputSerialize` -/
def writeOutput (out : PaymentOutput) (w : ByteWriter UInt8) : ByteWriter UInt8 :=
  let w := if out.ctx.isDefault outputAmountKey then w
    else setInt w out.amount.toNat outputAmountKey
  let w := if out.ctx.isDefault outputScriptKey then w
    else setBytes w out.script (out.script.getD []).length outputScriptKey
  setUnknown w out.ctx

/-! ## Details -/

abbrev detailsNetworkKey : ℕ := 1
abbrev detailsOutputsKey : ℕ := 2
abbrev detailsTimeKey : ℕ := 3
abbrev detailsExpiresKey : ℕ := 4
abbrev detailsMemoKey : ℕ := 5
abbrev detailsPaymentUrlKey : ℕ := 6
abbrev detailsMerchDataKey : ℕ := 7

structure BRPaymentProtocolDetails where
  network : Option (List UInt8) := none
  outputs : List PaymentOutput := []
  outCount : ℕ := 0
  time : UInt64 := 0
  expires : UInt64 := 0
  memo : Option (List UInt8) := none
  paymentURL : Option (List UInt8) := none
  merchantData : Option (List UInt8) := none
  merchDataLen : ℕ := 0
  ctx : ProtoBufContext
deriving DecidableEq

/-- `"main"` -/
def mainNetwork : List UInt8 :=
  [0x6d, 0x61, 0x69, 0x6e]

/-- The arguments of `BRPaymentProtocolDetailsNew`. -/
structure DetailsArgs where
  network : Option (List UInt8) := none
  outputs : List (UInt64 × List UInt8) := []
  time : UInt64 := 0
  expires : UInt64 := 0
  memo : Option (List UInt8) := none
  paymentURL : Option (List UInt8) := none
  merchantData : Option (List UInt8) := none
deriving DecidableEq

/-- `BRPaymentProtocolDetailsNew`, which leaves `outCount` at 0. -/
def newDetails (codec : ScriptCodec) (args : DetailsArgs) : BRPaymentProtocolDetails where
  network := newStringOr args.network mainNetwork
  outputs := args.outputs.map (fun o => newPaymentOutput codec o.1 o.2)
  time := args.time
  expires := args.expires
  memo := newString args.memo
  paymentURL := newString args.paymentURL
  merchantData := (newBytes args.merchantData).1
  merchDataLen := (newBytes args.merchantData).2
  ctx :=
    if args.network.isNone then (newContext (detailsMerchDataKey + 1)).setDefault detailsNetworkKey true
    else newContext (detailsMerchDataKey + 1)

/-- The body of the loop of `BRPaymentProtocolDetailsParse`. -/
def detailsStep (codec : ScriptCodec) (junk : ℕ → UInt8) : FieldStep BRPaymentProtocolDetails :=
  fun details key i data dataLen =>
    match key / 8 with
    | 1 => .ok { details with network := string details.network data dataLen }
    | 2 => do
        let out ← parseOutputMessage codec junk data dataLen
        return { details with outputs := details.outputs ++ out.toList }
    | 3 => .ok { details with
        time := UInt64.ofNat i, ctx := details.ctx.setDefault detailsTimeKey false }
    | 4 => .ok { details with
        expires := UInt64.ofNat i, ctx := details.ctx.setDefault detailsExpiresKey false }
    | 5 => .ok { details with memo := string details.memo data dataLen }
    | 6 => .ok { details with paymentURL := string details.paymentURL data dataLen }
    | 7 => .ok { details with
        merchantData := (bytes details.merchantData data dataLen).1
        merchDataLen := (bytes details.merchantData data dataLen).2 }
    | _ => do
        let ctx ← details.ctx.addUnknown junk key i data dataLen
        return { details with ctx := ctx }

/-- The end of `BRPaymentProtocolDetailsParse`. -/
def finishDetails (details : BRPaymentProtocolDetails) : BRPaymentProtocolDetails :=
  let details := { details with outCount := details.outputs.length }
  if details.network.isNone then
    { details with
      network := string none (some mainNetwork) mainNetwork.length
      ctx := details.ctx.setDefault detailsNetworkKey true }
  else details

/-- A parser's loop that a `NULL` buffer skips. -/
def readMessage {σ : Type} (step : FieldStep σ) (buf : Option (List UInt8)) (bufLen : ℕ) (s : σ) :
    Except ProtoBufFault σ :=
  if buf.isNone then .ok s else readFields step buf bufLen s

/-- `BRPaymentProtocolDetailsParse` -/
def parseDetails (codec : ScriptCodec) (junk : ℕ → UInt8) (buf : Option (List UInt8))
    (bufLen : ℕ) : Except ProtoBufFault BRPaymentProtocolDetails := do
  let details ← readMessage (detailsStep codec junk) buf bufLen
    { ctx := ((newContext (detailsMerchDataKey + 1)).setDefault detailsTimeKey true).setDefault
        detailsExpiresKey true }
  return finishDetails details

/-- A message is written to a buffer of its own, of the length it needs or more, and
from there into another one. -/
def setMessage (junk : ℕ → UInt8) (f : ByteWriter UInt8 → ByteWriter UInt8) (outLen : ℕ)
    (w : ByteWriter UInt8) (key : ℕ) : ByteWriter UInt8 :=
  let needed := (written f none).2
  let out := written f (some (newBuf junk (max outLen needed)))
  setBytes w (some out.1) out.2 key

/-- The messages are written one after the other through a growing buffer. -/
def setMessages (junk : ℕ → UInt8) (key : ℕ) :
    ℕ → List (ByteWriter UInt8 → ByteWriter UInt8) → ByteWriter UInt8 → ByteWriter UInt8
  | _, [], w => w
  | outLen, f :: fs, w =>
      setMessages junk key (max outLen (written f none).2) fs (setMessage junk f outLen w key)

/-- `BRPaymentProtocolDetailsSerialize` -/
def writeDetails (junk : ℕ → UInt8) (details : BRPaymentProtocolDetails) (w : ByteWriter UInt8) :
    ByteWriter UInt8 :=
  let w := if details.ctx.isDefault detailsNetworkKey then w
    else setString w details.network detailsNetworkKey
  let w := setMessages junk detailsOutputsKey 0x100
    ((details.outputs.take details.outCount).map writeOutput) w
  let w := if details.ctx.isDefault detailsTimeKey then w
    else setInt w details.time.toNat detailsTimeKey
  let w := if details.ctx.isDefault detailsExpiresKey then w
    else setInt w details.expires.toNat detailsExpiresKey
  let w := if details.memo.isSome then setString w details.memo detailsMemoKey else w
  let w := if details.paymentURL.isSome then setString w details.paymentURL detailsPaymentUrlKey
    else w
  let w := if details.merchantData.isSome then
      setBytes w details.merchantData details.merchDataLen detailsMerchDataKey
    else w
  setUnknown w details.ctx

/-! ## Requests -/

abbrev requestVersionKey : ℕ := 1
abbrev requestPkiTypeKey : ℕ := 2
abbrev requestPkiDataKey : ℕ := 3
abbrev requestDetailsKey : ℕ := 4
abbrev requestSignatureKey : ℕ := 5

structure BRPaymentProtocolRequest where
  version : UInt32 := 0
  pkiType : Option (List UInt8) := none
  pkiData : Option (List UInt8) := none
  pkiDataLen : ℕ := 0
  details : Option BRPaymentProtocolDetails := none
  signature : Option (List UInt8) := none
  sigLen : ℕ := 0
  ctx : ProtoBufContext
deriving DecidableEq

/-- `"none"` -/
def nonePki : List UInt8 :=
  [0x6e, 0x6f, 0x6e, 0x65]

/-- The arguments of `BRPaymentProtocolRequestNew` but for the details. -/
structure RequestArgs where
  version : UInt32 := 0
  pkiType : Option (List UInt8) := none
  pkiData : Option (List UInt8) := none
  signature : Option (List UInt8) := none
deriving DecidableEq

/-- `BRPaymentProtocolRequestNew` -/
def newRequest (args : RequestArgs) (details : BRPaymentProtocolDetails) :
    BRPaymentProtocolRequest where
  version := if args.version = 0 then 1 else args.version
  pkiType := newStringOr args.pkiType nonePki
  pkiData := (newBytes args.pkiData).1
  pkiDataLen := (newBytes args.pkiData).2
  details := some details
  signature := (newBytes args.signature).1
  sigLen := (newBytes args.signature).2
  ctx :=
    let ctx := newContext (requestSignatureKey + 1)
    let ctx := if args.version = 0 then ctx.setDefault requestVersionKey true else ctx
    if args.pkiType.isNone then ctx.setDefault requestPkiTypeKey true else ctx

/-- The body of the loop of `BRPaymentProtocolRequestParse`. -/
def requestStep (codec : ScriptCodec) (junk : ℕ → UInt8) : FieldStep BRPaymentProtocolRequest :=
  fun req key i data dataLen =>
    match key / 8 with
    | 1 => .ok { req with
        version := UInt32.ofNat i, ctx := req.ctx.setDefault requestVersionKey false }
    | 2 => .ok { req with pkiType := string req.pkiType data dataLen }
    | 3 => .ok { req with
        pkiData := (bytes req.pkiData data dataLen).1
        pkiDataLen := (bytes req.pkiData data dataLen).2 }
    | 4 => do
        let details ← parseDetails codec junk data dataLen
        return { req with details := some details }
    | 5 => .ok { req with
        signature := (bytes req.signature data dataLen).1
        sigLen := (bytes req.signature data dataLen).2 }
    | _ => do
        let ctx ← req.ctx.addUnknown junk key i data dataLen
        return { req with ctx := ctx }

/-- The end of `BRPaymentProtocolRequestParse`; details are required. -/
def finishRequest (req : BRPaymentProtocolRequest) : Option BRPaymentProtocolRequest :=
  let req := if req.pkiType.isNone then
      { req with
        pkiType := string none (some nonePki) nonePki.length
        ctx := req.ctx.setDefault requestPkiTypeKey true }
    else req
  if req.details.isNone then none else some req

/-- `BRPaymentProtocolRequestParse` -/
def parseRequest (codec : ScriptCodec) (junk : ℕ → UInt8) (buf : Option (List UInt8))
    (bufLen : ℕ) : Except ProtoBufFault (Option BRPaymentProtocolRequest) := do
  let req ← readMessage (requestStep codec junk) buf bufLen
    { version := 1, ctx := (newContext (requestSignatureKey + 1)).setDefault requestVersionKey true }
  return finishRequest req

/-- `BRPaymentProtocolRequestSerialize` -/
def writeRequest (junk : ℕ → UInt8) (req : BRPaymentProtocolRequest) (w : ByteWriter UInt8) :
    ByteWriter UInt8 :=
  let w := if req.ctx.isDefault requestVersionKey then w
    else setInt w req.version.toNat requestVersionKey
  let w := if req.ctx.isDefault requestPkiTypeKey then w
    else setString w req.pkiType requestPkiTypeKey
  let w := if req.pkiData.isSome then setBytes w req.pkiData req.pkiDataLen requestPkiDataKey
    else w
  let w := match req.details with
    | some details => setMessage junk (writeDetails junk details) 0 w requestDetailsKey
    | none => w
  let w := if req.signature.isSome then setBytes w req.signature req.sigLen requestSignatureKey
    else w
  setUnknown w req.ctx

/-- The serialization of a message, as the callers write it: the length first, then
the bytes into a buffer of that length. -/
def serialized (junk : ℕ → UInt8) (f : ByteWriter UInt8 → ByteWriter UInt8) : List UInt8 :=
  let out := written f (some (newBuf junk (written f none).2))
  out.1.take out.2

end BreadwalletCore
