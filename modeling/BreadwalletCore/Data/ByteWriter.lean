import Mathlib.Tactic

/-!
# Writing into a buffer

A writer has a buffer and an offset.  The offset moves on whether or not what
is written fits, so a first pass without a buffer counts the bytes that a second
one needs.  `Appends f l` says that `f` writes `l`, if there is room for it.
-/

universe u

variable {α : Type u}

/-- A buffer, and the offset of what is written next. -/
structure ByteWriter (α : Type u) where
  buf : List α
  off : ℕ

namespace ByteWriter

/-- Copy `l` to the offset, if the buffer has room for all of it. -/
def copy (w : ByteWriter α) (l : List α) : ByteWriter α :=
  { buf := if w.off + l.length ≤ w.buf.length
      then w.buf.take w.off ++ l ++ w.buf.drop (w.off + l.length) else w.buf
    off := w.off + l.length }

/-- Copy `l` to the offset one by one, as far as the buffer has room. -/
def copyEach (w : ByteWriter α) (l : List α) : ByteWriter α :=
  l.foldl (fun w a => w.copy [a]) w

/-- `f` writes `l` at the offset and nothing in front of it; all of `l` is
written if there is room. -/
structure Appends (f : ByteWriter α → ByteWriter α) (l : List α) : Prop where
  off : ∀ w, (f w).off = w.off + l.length
  length : ∀ w, (f w).buf.length = w.buf.length
  keeps : ∀ w, (f w).buf.take w.off = w.buf.take w.off
  fits : ∀ w, w.off + l.length ≤ w.buf.length →
    (f w).buf = w.buf.take w.off ++ l ++ w.buf.drop (w.off + l.length)

theorem appends_id :
    Appends (fun w : ByteWriter α => w) [] := by
  refine ⟨fun _ => rfl, fun _ => rfl, fun _ => rfl, fun w _ => ?_⟩
  rw [List.append_nil, List.length_nil, Nat.add_zero, List.take_append_drop]

theorem appends_copy
    (l : List α) :
    Appends (fun w : ByteWriter α => w.copy l) l := by
  refine ⟨fun _ => rfl, fun w => ?_, fun w => ?_, fun w h => if_pos h⟩
  · rw [copy]
    split
    · rename_i h
      rw [List.length_append, List.length_append, List.length_take, List.length_drop]
      omega
    · rfl
  · rw [copy]
    split
    · rename_i h
      have hlen : (w.buf.take w.off).length = w.off := by
        rw [List.length_take]
        omega
      rw [List.append_assoc, List.take_append_of_le_length (by rw [hlen]), List.take_take,
        Nat.min_self]
    · rfl

variable {f g : ByteWriter α → ByteWriter α} {l m : List α}

/-- One writes behind the other. -/
theorem Appends.comp
    (hf : Appends f l)
    (hg : Appends g m) :
    Appends (fun w => g (f w)) (l ++ m) := by
  refine ⟨fun w => ?_, fun w => ?_, fun w => ?_, fun w h => ?_⟩
  · rw [hg.off, hf.off, List.length_append, Nat.add_assoc]
  · rw [hg.length, hf.length]
  · have hle : w.off ≤ (f w).off := by
      rw [hf.off]
      omega
    have hkeep := congrArg (List.take w.off) (hg.keeps (f w))
    rw [List.take_take, List.take_take, Nat.min_eq_left hle] at hkeep
    rw [hkeep, hf.keeps]
  · rw [List.length_append] at h
    have hbuf := hf.fits w (by omega)
    have hoff := hf.off w
    rw [hg.fits (f w) (by rw [hoff, hf.length]; omega), hoff, hbuf]
    have hlen : (w.buf.take w.off ++ l).length = w.off + l.length := by
      rw [List.length_append, List.length_take]
      omega
    rw [List.take_left' hlen, List.length_append, ← Nat.add_assoc,
      show w.off + l.length + m.length = (w.buf.take w.off ++ l).length + m.length by rw [hlen],
      List.drop_append, List.drop_of_length_le (by omega), List.nil_append, Nat.add_sub_cancel_left,
      List.drop_drop, hlen]
    simp only [List.append_assoc]

theorem appends_copyEach
    (l : List α) :
    Appends (fun w : ByteWriter α => w.copyEach l) l := by
  induction l with
  | nil =>
      exact appends_id
  | cons a l ih =>
      exact (appends_copy [a]).comp ih

/-- Writing for each element of a list. -/
theorem appends_foldl
    {β : Type*}
    {f : ByteWriter α → β → ByteWriter α}
    {g : β → List α}
    {xs : List β}
    (hf : ∀ x ∈ xs, Appends (fun w => f w x) (g x)) :
    Appends (fun w => xs.foldl f w) (xs.flatMap g) := by
  induction xs with
  | nil =>
      exact appends_id
  | cons x xs ih =>
      exact (hf x List.mem_cons_self).comp (ih fun y hy => hf y (List.mem_cons_of_mem x hy))

/-- A buffer of the right length holds what was written, and nothing else. -/
theorem Appends.buf_eq
    {buf : List α}
    (hf : Appends f l)
    (hlen : buf.length = l.length) :
    (f ⟨buf, 0⟩).buf = l := by
  have h := hf.fits ⟨buf, 0⟩ (by simp [hlen])
  rwa [List.take_zero, List.nil_append, Nat.zero_add, ← hlen, List.drop_length,
    List.append_nil] at h

end ByteWriter
