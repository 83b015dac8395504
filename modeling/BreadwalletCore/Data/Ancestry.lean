import Mathlib.Data.Fintype.Card
import Mathlib.Tactic.Common

/-!
# Ancestors in a partial forest

`up a` is the parent of `a`, where it is present, and `rank` is a depth that a
step to the parent lowers by one.  The members that a property `P` holds of are
ranked; the rules below speak about walks that start at such a member.

`Shares up a b` says that `a` and `b` have a common ancestor.  The two rules
for it are the steps of a walk with two pointers, of which the second is never
above the first.
-/

namespace Ancestry

universe u

variable {α : Type u}

/-- The ancestor some steps up. -/
def ancestor (up : α → Option α) : ℕ → α → Option α
  | 0, a => some a
  | n + 1, a => (up a).bind (ancestor up n)

/-- `b` is an ancestor of `a`, or `a` itself. -/
def Above (up : α → Option α) (a b : α) : Prop :=
  ∃ n, ancestor up n a = some b

/-- Two members have a common ancestor. -/
def Shares (up : α → Option α) (a b : α) : Prop :=
  ∃ c, Above up a c ∧ Above up b c

/-- On the members with `P`, parents have `P` and a rank lower by one. -/
structure Ranked (up : α → Option α) (rank : α → ℕ) (P : α → Prop) : Prop where
  closed : ∀ {a b}, P a → up a = some b → P b
  rank_up : ∀ {a b}, P a → up a = some b → rank a = rank b + 1

variable {up : α → Option α} {rank : α → ℕ} {P : α → Prop} {a b c : α} {m n : ℕ}

theorem ancestor_succ
    (up : α → Option α) (n : ℕ) (a : α) :
    ancestor up (n + 1) a = (up a).bind (ancestor up n) := by
  rfl

theorem ancestor_add
    (up : α → Option α) (m n : ℕ) (a : α) :
    ancestor up (m + n) a = (ancestor up m a).bind (ancestor up n) := by
  induction m generalizing a with
  | zero =>
      rw [Nat.zero_add]
      rfl
  | succ m ih =>
      rw [Nat.succ_add, ancestor_succ, ancestor_succ]
      cases up a with
      | none =>
          rfl
      | some b =>
          exact ih b

theorem ancestor_one
    (up : α → Option α) (a : α) :
    ancestor up 1 a = up a := by
  rw [ancestor_succ]
  cases up a <;> rfl

/-- Where there is an ancestor, there are all the nearer ones. -/
theorem ancestor_isSome_of_le
    (h : (ancestor up n a).isSome)
    (hmn : m ≤ n) :
    (ancestor up m a).isSome := by
  obtain ⟨k, rfl⟩ := Nat.exists_eq_add_of_le hmn
  rw [ancestor_add] at h
  cases hm : ancestor up m a with
  | none =>
      rw [hm] at h
      cases h
  | some b =>
      rfl

/-- Two forests have the same walks from a member of a part of the first in
which they have the same parents. -/
theorem ancestor_congr
    {up' : α → Option α} {Q : α → Prop}
    (hsame : ∀ a, Q a → up' a = up a)
    (hclosed : ∀ a b, Q a → up a = some b → Q b)
    (ha : Q a) (n : ℕ) :
    ancestor up' n a = ancestor up n a := by
  induction n generalizing a with
  | zero =>
      rfl
  | succ n ih =>
      rw [ancestor_succ, ancestor_succ, hsame a ha]
      cases h : up a with
      | none =>
          rfl
      | some b =>
          exact ih (hclosed a b ha h)

/-! ## Ranks -/

section Ranked

variable (hr : Ranked up rank P)

include hr

theorem Ranked.ancestor_rank
    (ha : P a)
    (h : ancestor up n a = some b) :
    P b ∧ rank a = rank b + n := by
  induction n generalizing a with
  | zero =>
      cases h
      exact ⟨ha, rfl⟩
  | succ n ih =>
      obtain ⟨a', hup, h⟩ := Option.bind_eq_some_iff.mp h
      obtain ⟨hb, hrank⟩ := ih (hr.closed ha hup) h
      have hstep := hr.rank_up ha hup
      exact ⟨hb, by omega⟩

theorem Ranked.above_rank
    (ha : P a)
    (h : Above up a b) :
    P b ∧ rank b ≤ rank a := by
  obtain ⟨n, h⟩ := h
  obtain ⟨hb, hrank⟩ := hr.ancestor_rank ha h
  exact ⟨hb, by omega⟩

/-- An ancestor is determined by its rank. -/
theorem Ranked.above_unique
    (ha : P a)
    (hb : Above up a b)
    (hc : Above up a c)
    (h : rank b = rank c) :
    b = c := by
  obtain ⟨n, hb⟩ := hb
  obtain ⟨m, hc⟩ := hc
  have hn := (hr.ancestor_rank ha hb).2
  have hm := (hr.ancestor_rank ha hc).2
  obtain rfl : n = m := by omega
  rw [hb] at hc
  exact Option.some.inj hc

/-- Of two ancestors the lower one is an ancestor of the higher one. -/
theorem Ranked.above_of_le
    (ha : P a)
    (hb : Above up a b)
    (hc : Above up a c)
    (h : rank c ≤ rank b) :
    Above up b c := by
  obtain ⟨n, hb⟩ := hb
  obtain ⟨m, hc⟩ := hc
  have hn := (hr.ancestor_rank ha hb).2
  have hm := (hr.ancestor_rank ha hc).2
  obtain ⟨k, rfl⟩ : ∃ k, m = n + k := ⟨m - n, by omega⟩
  rw [ancestor_add, hb] at hc
  exact ⟨k, hc⟩

/-- A walk is no longer than a list that holds all parents. -/
theorem Ranked.ancestor_le_length
    {l : List α}
    (hl : ∀ a b, up a = some b → b ∈ l)
    (ha : P a)
    (h : (ancestor up n a).isSome) :
    n ≤ l.length := by
  classical
  -- the ancestors on the way have different ranks, so they are different
  have hsome : ∀ i : Fin n, ∃ b, ancestor up (i + 1) a = some b := by
    intro i
    exact Option.isSome_iff_exists.mp (ancestor_isSome_of_le h (by omega))
  choose f hf using hsome
  have hinj : Function.Injective f := by
    intro i j hij
    have hi := (hr.ancestor_rank ha (hf i)).2
    have hj := (hr.ancestor_rank ha (hf j)).2
    rw [hij] at hi
    exact Fin.ext (by omega)
  have hmem : ∀ i, f i ∈ l.toFinset := by
    intro i
    have hi := hf i
    rw [ancestor_add] at hi
    obtain ⟨b, -, hb⟩ := Option.bind_eq_some_iff.mp hi
    rw [ancestor_succ] at hb
    obtain ⟨c, hup, hc⟩ := Option.bind_eq_some_iff.mp hb
    cases hc
    exact List.mem_toFinset.mpr (hl b _ hup)
  have hcard : (Finset.univ : Finset (Fin n)).card ≤ l.toFinset.card :=
    Finset.card_le_card_of_injOn f (fun i _ => hmem i) (fun i _ j _ hij => hinj hij)
  rw [Finset.card_univ, Fintype.card_fin] at hcard
  exact hcard.trans (List.toFinset_card_le l)

end Ranked

theorem Above.refl
    (up : α → Option α) (a : α) :
    Above up a a :=
  ⟨0, rfl⟩

theorem Above.trans
    (hab : Above up a b)
    (hbc : Above up b c) :
    Above up a c := by
  obtain ⟨n, hn⟩ := hab
  obtain ⟨m, hm⟩ := hbc
  exact ⟨n + m, by rw [ancestor_add, hn]; exact hm⟩

theorem Above.step
    (hup : up a = some b)
    (h : Above up b c) :
    Above up a c := by
  obtain ⟨n, h⟩ := h
  exact ⟨n + 1, by rw [ancestor_succ, hup]; exact h⟩

/-- An ancestor is the member itself or one of the parent. -/
theorem Above.cases
    (h : Above up a c) :
    a = c ∨ ∃ b, up a = some b ∧ Above up b c := by
  obtain ⟨n, h⟩ := h
  cases n with
  | zero =>
      exact Or.inl (Option.some.inj h)
  | succ n =>
      obtain ⟨b, hup, h⟩ := Option.bind_eq_some_iff.mp h
      exact Or.inr ⟨b, hup, n, h⟩

/-- The higher of two different members with a common ancestor has a parent,
which shares it. -/
theorem Shares.up_left
    (hr : Ranked up rank P)
    (hb : P b)
    (h : Shares up a b)
    (hle : rank b ≤ rank a)
    (hne : a ≠ b) :
    ∃ a', up a = some a' ∧ Shares up a' b := by
  obtain ⟨c, hac, hbc⟩ := h
  rcases hac.cases with rfl | ⟨a', hup, hc⟩
  · -- the common ancestor is `a` itself, so `b` is not above it
    have hrank := (hr.above_rank hb hbc).2
    have heq : rank b = rank a := by omega
    exact absurd (hr.above_unique hb hbc (Above.refl up b) heq.symm) hne
  · exact ⟨a', hup, c, hc, hbc⟩

end Ancestry
