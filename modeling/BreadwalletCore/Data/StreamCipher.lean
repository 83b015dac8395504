import Mathlib.Data.UInt
import Mathlib.Tactic

/-!
# Stream ciphers

`xorStream next s l` combines the bytes `l` with a key stream: `next` yields a
byte of the stream and the state behind it.  The stream does not depend on the
data, so that applying it twice gives the data back.
-/

namespace StreamCipher

universe u

variable {σ : Type u}

/-- The bytes of `l` combined with the key stream from `s` on. -/
def xorStream (next : σ → UInt8 × σ) : σ → List UInt8 → List UInt8
  | _, [] => []
  | s, b :: l => (b ^^^ (next s).1) :: xorStream next (next s).2 l

@[simp] theorem length_xorStream
    (next : σ → UInt8 × σ) (s : σ) (l : List UInt8) :
    (xorStream next s l).length = l.length := by
  induction l generalizing s with
  | nil =>
      rfl
  | cons b l ih =>
      rw [xorStream, List.length_cons, List.length_cons, ih]

/-- One byte: that of the stream is the one behind as many turns. -/
theorem getElem?_xorStream
    (next : σ → UInt8 × σ) (s : σ) (l : List UInt8) (i : ℕ) :
    (xorStream next s l)[i]? =
      l[i]?.map (fun b => b ^^^ (next ((fun s => (next s).2)^[i] s)).1) := by
  induction l generalizing s i with
  | nil =>
      rfl
  | cons b l ih =>
      cases i with
      | zero =>
          rfl
      | succ i =>
          rw [xorStream, List.getElem?_cons_succ, List.getElem?_cons_succ, ih]
          rfl

/-- Deciphering is enciphering again. -/
theorem xorStream_xorStream
    (next : σ → UInt8 × σ) (s : σ) (l : List UInt8) :
    xorStream next s (xorStream next s l) = l := by
  induction l generalizing s with
  | nil =>
      rfl
  | cons b l ih =>
      rw [xorStream, xorStream, ih, UInt8.xor_assoc, UInt8.xor_self, UInt8.xor_zero]

end StreamCipher
