import Mathlib.Tactic

/-!
# Base 128 varints

A number is written seven bits a byte, the least significant first; the top bit
of a byte says that another one follows.  The bytes of a number are never the
start of the bytes of another one.
-/

namespace Varint

/-- At most `fuel` bytes of a number. -/
def encodeLoop : ℕ → ℕ → List UInt8
  | 0, _ => []
  | fuel + 1, v =>
      if v / 128 = 0 then [UInt8.ofNat v]
      else UInt8.ofNat (v % 128 + 128) :: encodeLoop fuel (v / 128)

/-- The bytes of a number below `2 ^ 64`. -/
def encode (v : ℕ) : List UInt8 :=
  encodeLoop 10 v

theorem length_encode_pos
    (v : ℕ) :
    0 < (encode v).length := by
  rw [encode, encodeLoop]
  split
  · exact Nat.zero_lt_one
  · exact Nat.succ_pos _

theorem toNat_last
    {v : ℕ}
    (h : v / 128 = 0) :
    (UInt8.ofNat v).toNat = v := by
  rw [UInt8.toNat_ofNat']
  omega

theorem toNat_more
    (v : ℕ) :
    (UInt8.ofNat (v % 128 + 128)).toNat = v % 128 + 128 := by
  rw [UInt8.toNat_ofNat']
  omega

theorem encodeLoop_append_inj
    {fuel v v' : ℕ} {x y : List UInt8}
    (hv : v < 128 ^ fuel)
    (hv' : v' < 128 ^ fuel)
    (h : encodeLoop fuel v ++ x = encodeLoop fuel v' ++ y) :
    v = v' ∧ x = y := by
  induction fuel generalizing v v' with
  | zero =>
      rw [pow_zero, Nat.lt_one_iff] at hv hv'
      exact ⟨by rw [hv, hv'], h⟩
  | succ fuel ih =>
      rw [pow_succ] at hv hv'
      rw [encodeLoop, encodeLoop] at h
      split at h <;> split at h <;>
        rw [List.cons_append, List.cons_append, List.cons.injEq] at h <;>
        have hhead := congrArg UInt8.toNat h.1
      · rw [toNat_last ‹v / 128 = 0›, toNat_last ‹v' / 128 = 0›] at hhead
        exact ⟨hhead, h.2⟩
      · rw [toNat_last ‹v / 128 = 0›, toNat_more] at hhead
        omega
      · rw [toNat_last ‹v' / 128 = 0›, toNat_more] at hhead
        omega
      · rw [toNat_more, toNat_more] at hhead
        obtain ⟨hdiv, hrest⟩ := ih (by omega) (by omega) h.2
        exact ⟨by omega, hrest⟩

/-- Bytes that start with a number start with no other one. -/
theorem encode_append_inj
    {v v' : ℕ} {x y : List UInt8}
    (hv : v < 2 ^ 64)
    (hv' : v' < 2 ^ 64)
    (h : encode v ++ x = encode v' ++ y) :
    v = v' ∧ x = y :=
  encodeLoop_append_inj (by omega) (by omega) h

end Varint
