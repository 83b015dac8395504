import BreadwalletCore.PaymentProtocol.Constructed
import BreadwalletCore.PaymentProtocol.Unknown
import Mathlib.Data.List.TakeWhile

/-!
# Requests of merchants

The fields of a payment request in ascending order, each at most once but for the
outputs, with unknown fields behind the known ones at each level.
-/

namespace BreadwalletCore

open ProtoBuf ByteWriter

/-- The unknown fields of a message whose last known number is `last`. -/
structure UnknownBehind (last : ℕ) (fs : List WireField) : Prop where
  ascending : fs.Pairwise (fun f g => f.number < g.number)
  fits : ∀ f ∈ fs, f.Fits
  behind : ∀ f ∈ fs, last < f.number

/-- The field of a number, if there is one. -/
def intField (key : ℕ) (arg : Option ℕ) : List WireField :=
  (arg.map (fun v => ⟨key, .varint v⟩)).toList

structure OutputMessage where
  amount : Option UInt64 := none
  script : List UInt8
  unknown : List WireField := []
deriving DecidableEq

namespace OutputMessage

/-- The fields that the parser knows. -/
def known (m : OutputMessage) : List WireField :=
  intField outputAmountKey (m.amount.map UInt64.toNat) ++ [⟨outputScriptKey, .data m.script⟩]

def encode (m : OutputMessage) : List UInt8 :=
  WireField.encodeAll (m.known ++ m.unknown)

def Canonical (m : OutputMessage) : Prop :=
  UnknownBehind outputScriptKey m.unknown

end OutputMessage

structure DetailsMessage where
  network : Option (List UInt8) := none
  outputs : List OutputMessage := []
  time : Option UInt64 := none
  expires : Option UInt64 := none
  memo : Option (List UInt8) := none
  paymentURL : Option (List UInt8) := none
  merchantData : Option (List UInt8) := none
  unknown : List WireField := []
deriving DecidableEq

namespace DetailsMessage

def known (m : DetailsMessage) : List WireField :=
  bytesField detailsNetworkKey m.network ++
    (m.outputs.map (fun out => ⟨detailsOutputsKey, .data out.encode⟩) ++
      (intField detailsTimeKey (m.time.map UInt64.toNat) ++
        (intField detailsExpiresKey (m.expires.map UInt64.toNat) ++
          (bytesField detailsMemoKey m.memo ++
            (bytesField detailsPaymentUrlKey m.paymentURL ++
              bytesField detailsMerchDataKey m.merchantData)))))

def encode (m : DetailsMessage) : List UInt8 :=
  WireField.encodeAll (m.known ++ m.unknown)

structure Canonical (m : DetailsMessage) : Prop where
  outputs : ∀ out ∈ m.outputs, out.Canonical
  unknown : UnknownBehind detailsMerchDataKey m.unknown

end DetailsMessage

structure RequestMessage where
  version : Option UInt32 := none
  pkiType : Option (List UInt8) := none
  pkiData : Option (List UInt8) := none
  details : DetailsMessage
  signature : Option (List UInt8) := none
  unknown : List WireField := []
deriving DecidableEq

namespace RequestMessage

def known (m : RequestMessage) : List WireField :=
  intField requestVersionKey (m.version.map UInt32.toNat) ++
    (bytesField requestPkiTypeKey m.pkiType ++ (bytesField requestPkiDataKey m.pkiData ++
      (⟨requestDetailsKey, .data m.details.encode⟩ ::
        bytesField requestSignatureKey m.signature)))

def encode (m : RequestMessage) : List UInt8 :=
  WireField.encodeAll (m.known ++ m.unknown)

structure Canonical (m : RequestMessage) : Prop where
  details : m.details.Canonical
  unknown : UnknownBehind requestSignatureKey m.unknown

end RequestMessage

/-! ## What is kept -/

/-- At most one unknown field, and one that `_ProtoBufUnknown` has room for. -/
def UnknownSurvives (fs : List WireField) : Prop :=
  fs.length ≤ 1 ∧ ∀ f ∈ fs, f.encode.length ≤ room f

/-- A string without a NUL. -/
def TextSurvives (text : Option (List UInt8)) : Prop :=
  ∀ str ∈ text, 0 ∉ str

def OutputMessage.Survives (m : OutputMessage) : Prop :=
  UnknownSurvives m.unknown

structure DetailsMessage.Survives (m : DetailsMessage) : Prop where
  network : TextSurvives m.network
  outputs : ∀ out ∈ m.outputs, out.Survives
  memo : TextSurvives m.memo
  paymentURL : TextSurvives m.paymentURL
  unknown : UnknownSurvives m.unknown

structure RequestMessage.Survives (m : RequestMessage) : Prop where
  pkiType : TextSurvives m.pkiType
  details : m.details.Survives
  unknown : UnknownSurvives m.unknown

theorem UnknownBehind.keys_ascending
    {last : ℕ} {fs : List WireField}
    (h : UnknownBehind last fs) :
    Ascending fs := by
  refine h.ascending.imp_of_mem (fun {f g} hf hg hlt => ?_)
  have hftype := (h.fits f hf).2.type_lt
  rw [WireField.key, WireField.key]
  omega

theorem cString_eq_self_iff
    {str : List UInt8} :
    cString str = str ↔ 0 ∉ str := by
  rw [cString, List.takeWhile_eq_self_iff]
  constructor
  · intro h hmem
    have := h 0 hmem
    simp at this
  · intro h b hb
    simp only [decide_eq_true_eq]
    rintro rfl
    exact h hb

/-- A string is written as it was read if it has no NUL. -/
theorem textField_eq_iff
    (key : ℕ) {text : Option (List UInt8)} :
    textField key text = bytesField key text ↔ TextSurvives text := by
  cases text with
  | none =>
      simp [textField, bytesField, TextSurvives]
  | some str =>
      simp [textField, bytesField, TextSurvives, cString_eq_self_iff]

theorem length_textField
    (key : ℕ) (text : Option (List UInt8)) :
    (textField key text).length = (bytesField key text).length := by
  cases text <;> rfl

end BreadwalletCore
