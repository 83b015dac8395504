import BreadwalletCore.Data.Traced
import BreadwalletCore.Transaction.Parse

/-!
# Access to a buffer

The places of a buffer that are read and the sums that are compared with its
length, and `BRVarInt` with what it reads.
-/

namespace BreadwalletCore

open Traced (All)

/-- What is done with a buffer. -/
inductive Access
  /-- the bytes `[off, off + len)` are read or copied -/
  | read (off len : ℕ)
  /-- a length computed from the bytes is compared with that of the buffer -/
  | sum (n : ℕ)
deriving DecidableEq, Repr

/-- A read inside the buffer, or a sum that does not wrap. -/
def Access.Ok (msgLen : ℕ) : Access → Prop
  | .read off len => off + len ≤ msgLen
  | .sum n => n < 2 ^ 64

/-- A handler with its accesses. -/
abbrev Reads := Traced Access

namespace Payload

variable {msg : List UInt8} {off n : ℕ}

/-- The reads of `BRVarInt` behind its first byte `h`. -/
def varIntTail (off bufLen : ℕ) (h : UInt8) : List Access :=
  if h = 0xfd then (if 3 ≤ bufLen then [.read (off + 1) 2] else [])
  else if h = 0xfe then (if 5 ≤ bufLen then [.read (off + 1) 4] else [])
  else if h = 0xff then (if 9 ≤ bufLen then [.read (off + 1) 8] else [])
  else []

/-- `BRVarInt`: the value and the number of bytes. -/
def readVarInt (msg : List UInt8) (off : ℕ) : Reads (ℕ × ℕ) :=
  let bufLen := if off ≤ msg.length then msg.length - off else 0
  ⟨varInt msg off,
    (if 1 ≤ bufLen then [.read off 1] else []) ++
      varIntTail off bufLen (if 1 ≤ bufLen then msg.getD off 0 else 0)⟩

/-- Every access is fine. -/
abbrev Inside {α : Type} (msg : List UInt8) (x : Reads α) : Prop :=
  All (Access.Ok msg.length) x

theorem varIntTail_inside
    {off bufLen : ℕ}
    (hlen : off + bufLen ≤ msg.length) (h : UInt8) :
    ∀ a ∈ varIntTail off bufLen h, a.Ok msg.length := by
  intro a ha
  rw [varIntTail] at ha
  split_ifs at ha with hfd h3 hfe h5 hff h9
  all_goals first
    | exact absurd ha List.not_mem_nil
    | rw [List.mem_singleton] at ha
      subst ha
      change off + 1 + _ ≤ msg.length
      omega

/-- `BRVarInt` checks what it reads. -/
theorem readVarInt_inside
    (msg : List UInt8) (off : ℕ) :
    Inside msg (readVarInt msg off) := by
  intro a ha
  rw [readVarInt] at ha
  by_cases hoff : off ≤ msg.length
  · rw [if_pos hoff] at ha
    rcases List.mem_append.mp ha with ha | ha
    · split_ifs at ha with hfirst
      · rw [List.mem_singleton] at ha
        subst ha
        change off + 1 ≤ msg.length
        omega
      · exact absurd ha List.not_mem_nil
    · exact varIntTail_inside (by omega) _ a ha
  · rw [if_neg hoff] at ha
    exact absurd ha List.not_mem_nil

end Payload

end BreadwalletCore
