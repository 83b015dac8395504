import Mathlib.Tactic

/-!
# Readers of a stream that comes in pieces

A reader asks for at most `capacity s` elements at a time and goes on with what
it gets.  It is closed where the capacity is 0.  What a read returns is decided
by the other side: any part of the stream that is not empty and fits.

A reader for which two reads are as good as one ends in the same state however
the stream is cut (`runs_iff`).
-/

universe u v

/-- What a reader asks for, and what it does with what it gets.  A piece that
does not fill the room leaves as much room as there was, less the piece. -/
structure ChunkedReader (σ : Type u) (α : Type v) where
  capacity : σ → ℕ
  received : σ → List α → σ
  room : ∀ s a, a.length < capacity s → capacity s ≤ a.length + capacity (received s a)
  split : ∀ s a b, b ≠ [] → (a ++ b).length ≤ capacity s →
    received s (a ++ b) = received (received s a) b

namespace ChunkedReader

variable {σ : Type u} {α : Type v} (R : ChunkedReader σ α)

/-- The reader ends in a state for a stream.  A closed reader leaves the rest of
the stream. -/
inductive Runs : σ → List α → σ → Prop
  | closed {s : σ} (l : List α) (h : R.capacity s = 0) : Runs s l s
  | idle (s : σ) : Runs s [] s
  | read {s s' : σ} {a l : List α} (hne : a ≠ []) (hfits : a.length ≤ R.capacity s)
      (hrest : Runs (R.received s a) l s') : Runs s (a ++ l) s'

/-- One element, if the reader is not closed. -/
def feedOne (s : σ) (x : α) : σ :=
  if R.capacity s = 0 then s else R.received s [x]

/-- A stream in pieces of one element. -/
def feed (s : σ) (l : List α) : σ :=
  l.foldl R.feedOne s

variable {R} {s s' : σ} {a l : List α}

theorem feed_append
    (s : σ) (a l : List α) :
    R.feed s (a ++ l) = R.feed (R.feed s a) l :=
  List.foldl_append

theorem feed_of_closed
    (h : R.capacity s = 0)
    (l : List α) :
    R.feed s l = s := by
  induction l with
  | nil =>
      rfl
  | cons x l ih =>
      rw [feed, List.foldl_cons, feedOne, if_pos h]
      exact ih

/-- One read is as good as one for each element. -/
theorem feed_eq_received
    (hne : a ≠ [])
    (hfits : a.length ≤ R.capacity s) :
    R.feed s a = R.received s a := by
  induction a generalizing s with
  | nil =>
      exact absurd rfl hne
  | cons x a ih =>
      rw [List.length_cons] at hfits
      have hone : R.feed s (x :: a) = R.feed (R.received s [x]) a := by
        rw [feed, List.foldl_cons, feedOne, if_neg (by omega)]
        rfl
      rw [hone]
      by_cases ha : a = []
      · subst ha
        rfl
      · have hpos := List.length_pos_iff.mpr ha
        have hroom := R.room s [x] (by rw [List.length_singleton]; omega)
        rw [List.length_singleton] at hroom
        rw [ih ha (by omega)]
        exact (R.split s [x] a ha (by rw [List.singleton_append, List.length_cons]; omega)).symm

theorem runs_feed
    (s : σ) (l : List α) :
    R.Runs s l (R.feed s l) := by
  induction l generalizing s with
  | nil =>
      exact .idle s
  | cons x l ih =>
      by_cases h : R.capacity s = 0
      · rw [feed_of_closed h]
        exact .closed _ h
      · have hone : R.feed s (x :: l) = R.feed (R.received s [x]) l := by
          rw [feed, List.foldl_cons, feedOne, if_neg h]
          rfl
        rw [hone]
        exact .read (a := [x]) (by simp) (by simp; omega) (ih _)

/-- The state does not depend on how the stream is cut. -/
theorem runs_iff :
    R.Runs s l s' ↔ s' = R.feed s l := by
  constructor
  · intro h
    induction h with
    | closed l h =>
        exact (feed_of_closed h l).symm
    | idle s =>
        rfl
    | read hne hfits hrest ih =>
        rw [feed_append, feed_eq_received hne hfits]
        exact ih
  · rintro rfl
    exact runs_feed s l

end ChunkedReader
