import BreadwalletCore.Peer.Bounds

/-!
# Rejected transactions

`_BRPeerAcceptRejectMessage` with the hash and the callback.  The length of the
hash is 0 also for messages about transactions, so that no hash is read.
-/

namespace BreadwalletCore
namespace Payload

open Segment (slice)

/-- `MSG_TX`. -/
def msgTx : List UInt8 := [0x74, 0x78]

/-- What `_BRPeerAcceptRejectMessage` does: what it logs, the calls of
`rejectedTx`, and the result. -/
structure RejectOutcome where
  log : Option Rejection := none
  calls : List (UInt256 × UInt8) := []
  r : Bool
deriving DecidableEq

/-- `hashLen = 0; if (strncmp(type, MSG_TX, sizeof(type)) == 0) hashLen = 0;`. -/
def rejectHashLen (type : List UInt8) : ℕ :=
  if type = msgTx then 0 else 0

/-- `if (hashLen == sizeof(UInt256)) txHash = UInt256Get(&msg[off]);`. -/
def readTxHash (msg : List UInt8) (off hashLen : ℕ) : Reads UInt256 :=
  if hashLen = 32 then readHash msg off else pure 0

/-- `_BRPeerAcceptRejectMessage` from the second length on. -/
def acceptReason (msg : List UInt8) (type : List UInt8) (code : UInt8) (off : ℕ) :
    Reads RejectOutcome := do
  let str ← readVarInt msg off
  let off := wrap (off + str.2)
  let hashLen := rejectHashLen type
  let needed ← lengthNeeded (off + str.1 + hashLen)
  if needed > msg.length then pure { r := false }
  else do
    let reason ← readString msg off (stringRoom str.1)
    let off := wrap (off + str.1)
    let txHash ← readTxHash msg off hashLen
    pure {
      log := some { type, code, reason }
      calls := if txHash ≠ 0 then [(txHash, code)] else []
      r := true }

/-- `_BRPeerAcceptRejectMessage`, where `rejectedTx` is set. -/
def acceptRejectMessage (msg : List UInt8) : Reads RejectOutcome := do
  let str ← readVarInt msg 0
  let off := str.2
  let needed ← lengthNeeded (off + str.1 + 1)
  if needed > msg.length then pure { r := false }
  else do
    let type ← readString msg off (stringRoom str.1)
    let off := wrap (off + str.1)
    let code ← readLE msg off 1
    acceptReason msg type (UInt8.ofNat code) (wrap (off + 1))

/-- The end of the reason. -/
def reasonEnd (msg : List UInt8) : ℕ :=
  reasonOffset msg + (varInt msg (reasonOffset msg)).2 + (varInt msg (reasonOffset msg)).1

/-- The hash behind the reason. -/
def rejectedHash (msg : List UInt8) : UInt256 :=
  BitVec.ofNat 256 (LittleEndian.value (slice msg (reasonEnd msg) 32))

/-- The code behind the type. -/
def rejectCode (msg : List UInt8) : UInt8 :=
  msg.getD ((varInt msg 0).2 + (varInt msg 0).1) 0

/-- A reject message of the type `tx` that has a hash, or is too short for
one. -/
structure TxReject (msg : List UInt8) : Prop where
  typeLen : (varInt msg 0).1 = 2
  type : slice msg (varInt msg 0).2 2 = msgTx
  code : reasonOffset msg ≤ msg.length
  hash : reasonEnd msg + 32 ≤ msg.length → rejectedHash msg ≠ 0

/-- A hash is passed on once, with the code, and messages that are too short are
refused. -/
structure ReachesWallet (msg : List UInt8) : Prop where
  complete : reasonEnd msg + 32 ≤ msg.length →
    (acceptRejectMessage msg).value.calls = [(rejectedHash msg, rejectCode msg)] ∧
      (acceptRejectMessage msg).value.r = true
  short : msg.length < reasonEnd msg + 32 → (acceptRejectMessage msg).value.r = false

variable {msg : List UInt8}

theorem rejectHashLen_eq
    (type : List UInt8) :
    rejectHashLen type = 0 :=
  ite_self 0

theorem value_acceptReason
    (msg type : List UInt8) (code : UInt8) (off : ℕ) :
    (acceptReason msg type code off).value =
      { log := (readReason msg type code off).value.1
        calls := []
        r := (readReason msg type code off).value.2 } := by
  simp only [acceptReason, readReason, rejectHashLen_eq, Traced.value_bind]
  split <;> rfl

/-- The call is all that `acceptReject` leaves out, and it is never made. -/
theorem value_acceptRejectMessage
    (msg : List UInt8) :
    (acceptRejectMessage msg).value =
      { log := (acceptReject msg).value.1
        calls := []
        r := (acceptReject msg).value.2 } := by
  simp only [acceptRejectMessage, acceptReject, Traced.value_bind]
  split
  · rfl
  · simp only [Traced.value_bind, value_acceptReason]

/-- A message is accepted if it is not known to end before its reason does. -/
theorem acceptReject_r
    (hlen : msg.length ≤ maxMsgLength)
    (hcode : reasonOffset msg ≤ msg.length) :
    (acceptReject msg).value.2 = true ↔ wrap (reasonEnd msg) ≤ msg.length := by
  have hmax : maxMsgLength = 2 ^ 25 := rfl
  have hvar := varInt_length msg (reasonOffset msg)
  obtain ⟨-, hoff⟩ := wrap_reasonOffset hlen hcode
  have hfirst : ¬ wrap ((varInt msg 0).2 + (varInt msg 0).1 + 1) > msg.length := by
    change ¬ wrap (reasonOffset msg) > msg.length
    rw [wrap_of_lt (by omega)]
    omega
  have hsecond : wrap (reasonOffset msg + (varInt msg (reasonOffset msg)).2) =
      reasonOffset msg + (varInt msg (reasonOffset msg)).2 := wrap_of_lt (by omega)
  have hend : reasonOffset msg + (varInt msg (reasonOffset msg)).2 +
      (varInt msg (reasonOffset msg)).1 = reasonEnd msg := rfl
  have hread : ∀ off, (readVarInt msg off).value = varInt msg off := fun _ => rfl
  have hneeded : ∀ n, (lengthNeeded n).value = wrap n := fun _ => rfl
  simp only [acceptReject, Traced.value_bind, hread, hneeded, if_neg hfirst]
  rw [hoff]
  simp only [readReason, Traced.value_bind, hread, hneeded, hsecond, Nat.add_zero, hend]
  by_cases hle : wrap (reasonEnd msg) ≤ msg.length
  · rw [if_neg (Nat.not_lt.mpr hle)]
    exact iff_of_true rfl hle
  · rw [if_pos (Nat.lt_of_not_le hle)]
    exact iff_of_false Bool.false_ne_true hle

/-- Nothing is passed on, and a message is refused exactly if it ends before its
reason does. -/
theorem reachesWallet_iff
    (hlen : msg.length ≤ maxMsgLength)
    (htx : TxReject msg) :
    ReachesWallet msg ↔ msg.length < wrap (reasonEnd msg) := by
  have hmax : maxMsgLength = 2 ^ 25 := rfl
  have hr := acceptReject_r hlen htx.code
  constructor
  · intro h
    have hshort : ¬ reasonEnd msg + 32 ≤ msg.length := by
      intro hfull
      have hcalls := (h.complete hfull).1
      rw [value_acceptRejectMessage] at hcalls
      cases hcalls
    have hrefused := h.short (Nat.lt_of_not_le hshort)
    rw [value_acceptRejectMessage] at hrefused
    exact Nat.lt_of_not_le fun hle => Bool.false_ne_true (hrefused.symm.trans (hr.mpr hle))
  · intro hend
    refine ⟨fun hfull => ?_, fun _ => ?_⟩
    · rw [wrap_of_lt (by omega)] at hend
      omega
    · rw [value_acceptRejectMessage]
      exact Bool.eq_false_iff.mpr fun htrue => absurd (hr.mp htrue) (Nat.not_le.mpr hend)

/-- A message that ends before its reason. -/
theorem reachesWallet_cut :
    ReachesWallet [2, 0x74, 0x78, 0x10, 5] :=
  (reachesWallet_iff (by decide) ⟨rfl, rfl, by decide, by decide⟩).mpr (by decide)

/-- A message with an empty reason and the hash 1 is accepted without a call. -/
theorem not_reachesWallet_hash :
    TxReject ([2, 0x74, 0x78, 0x10, 0] ++ 1 :: List.replicate 31 0) ∧
      ¬ ReachesWallet ([2, 0x74, 0x78, 0x10, 0] ++ 1 :: List.replicate 31 0) := by
  refine ⟨⟨rfl, rfl, by decide, by decide⟩, fun h => ?_⟩
  have hcalls := (h.complete (by decide)).1
  rw [value_acceptRejectMessage] at hcalls
  cases hcalls

end Payload
end BreadwalletCore
