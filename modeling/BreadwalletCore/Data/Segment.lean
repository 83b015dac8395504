import Mathlib.Data.List.Basic
import Mathlib.Tactic

/-!
# Segments of a buffer

`At buf off l` says that the buffer holds `l` at offset `off`.  A reader that
moves an offset through a buffer is related to a writer that appends by
splitting segments (`at_append`).
-/

namespace Segment

universe u

variable {α : Type u}

/-- The elements `[off, off + n)`. -/
def slice (buf : List α) (off n : ℕ) : List α :=
  (buf.drop off).take n

/-- The buffer holds `l` at `off`. -/
def At (buf : List α) (off : ℕ) (l : List α) : Prop :=
  off + l.length ≤ buf.length ∧ slice buf off l.length = l

theorem length_slice
    {buf : List α} {off n : ℕ}
    (h : off + n ≤ buf.length) :
    (slice buf off n).length = n := by
  rw [slice, List.length_take, List.length_drop]
  omega

theorem at_slice
    {buf : List α} {off n : ℕ}
    (h : off + n ≤ buf.length) :
    At buf off (slice buf off n) := by
  rw [At, length_slice h]
  exact ⟨h, rfl⟩

theorem at_nil
    {buf : List α} {off : ℕ}
    (h : off ≤ buf.length) :
    At buf off [] :=
  ⟨h, rfl⟩

/-- A segment of a segment. -/
theorem slice_slice
    (buf : List α) (off : ℕ) {n k m : ℕ}
    (h : k + m ≤ n) :
    slice (slice buf off n) k m = slice buf (off + k) m := by
  rw [slice, slice, slice, List.drop_take, List.drop_drop, List.take_take,
    Nat.min_eq_left (by omega)]

theorem slice_add
    (buf : List α) (off m n : ℕ) :
    slice buf off (m + n) = slice buf off m ++ slice buf (off + m) n := by
  rw [slice, slice, slice, List.take_add, List.drop_drop]

/-- A segment of two parts is two segments. -/
theorem at_append
    {buf : List α} {off : ℕ} {l₁ l₂ : List α} :
    At buf off (l₁ ++ l₂) ↔ At buf off l₁ ∧ At buf (off + l₁.length) l₂ := by
  rw [At, At, At, List.length_append, slice_add]
  constructor
  · rintro ⟨hle, heq⟩
    have hlen : (slice buf off l₁.length).length = l₁.length := length_slice (by omega)
    obtain ⟨h₁, h₂⟩ := List.append_inj heq hlen
    exact ⟨⟨by omega, h₁⟩, by omega, h₂⟩
  · rintro ⟨⟨-, h₁⟩, hle, h₂⟩
    exact ⟨by omega, by rw [h₁, h₂]⟩

theorem at_cons
    {buf : List α} {off : ℕ} {a : α} {l : List α} :
    At buf off (a :: l) ↔ buf[off]? = some a ∧ At buf (off + 1) l := by
  rw [← List.singleton_append, at_append, List.length_singleton]
  refine and_congr_left (fun _ => ?_)
  rw [At, slice, List.length_singleton]
  constructor
  · rintro ⟨hle, htake⟩
    rw [List.drop_eq_getElem_cons (by omega)] at htake
    rw [List.getElem?_eq_getElem (by omega)]
    exact congrArg some (List.head_eq_of_cons_eq htake)
  · intro h
    obtain ⟨hlt, hget⟩ := List.getElem?_eq_some_iff.mp h
    refine ⟨by omega, ?_⟩
    rw [List.drop_eq_getElem_cons hlt, hget]
    rfl

theorem at_zero_iff
    {buf l : List α} :
    At buf 0 l ↔ ∃ rest, buf = l ++ rest := by
  rw [At, slice, List.drop_zero, Nat.zero_add]
  constructor
  · rintro ⟨-, htake⟩
    have hsplit := List.take_append_drop l.length buf
    rw [htake] at hsplit
    exact ⟨_, hsplit.symm⟩
  · rintro ⟨rest, rfl⟩
    exact ⟨by simp, by simp⟩

end Segment
