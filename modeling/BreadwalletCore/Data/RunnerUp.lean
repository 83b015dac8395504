import Mathlib.Order.BoundedOrder.Basic
import Mathlib.Tactic

/-!
# The second highest element of a list

`second` removes one occurrence of the highest element and takes the highest of
the rest.  `scan` is a single pass that keeps the highest element met so far,
and the one that it replaced.  It finds the second highest element if no element
behind the highest one exceeds those in front of it.
-/

namespace RunnerUp

universe u

variable {α : Type u} [LinearOrder α] [OrderBot α]

/-- The highest element, or the least one of the order. -/
def highest (l : List α) : α :=
  l.foldr max ⊥

/-- The highest of the others. -/
def second (l : List α) : α :=
  highest (l.erase (highest l))

/-- One step of the pass. -/
def step (s : α × α) (x : α) : α × α :=
  if s.1 < x then (x, s.1) else s

/-- The pass. -/
def scan (l : List α) : α × α :=
  l.foldl step (⊥, ⊥)

/-- Behind the first of the highest elements there is none that exceeds the
ones in front of it. -/
def Ascends (l : List α) : Prop :=
  ∀ front m back, l = front ++ m :: back → (∀ x ∈ front, x < m) → (∀ x ∈ back, x ≤ m) →
    ∀ x ∈ back, x ≤ highest front

variable {l front back : List α} {m x : α}

theorem le_highest
    (h : x ∈ l) :
    x ≤ highest l := by
  induction l with
  | nil =>
      cases h
  | cons y l ih =>
      rcases List.mem_cons.mp h with rfl | h
      · exact le_max_left _ _
      · exact (ih h).trans (le_max_right _ _)

theorem highest_le_iff :
    highest l ≤ m ↔ ∀ x ∈ l, x ≤ m := by
  constructor
  · exact fun h x hx => (le_highest hx).trans h
  · intro h
    induction l with
    | nil =>
        exact bot_le
    | cons y l ih =>
        exact max_le (h y List.mem_cons_self) (ih fun x hx => h x (List.mem_cons_of_mem y hx))

theorem highest_append
    (l₁ l₂ : List α) :
    highest (l₁ ++ l₂) = max (highest l₁) (highest l₂) := by
  induction l₁ with
  | nil =>
      exact (max_bot_left _).symm
  | cons y l₁ ih =>
      change max y (highest (l₁ ++ l₂)) = max (max y (highest l₁)) (highest l₂)
      rw [ih, max_assoc]

omit [OrderBot α] in
/-- The first of the highest elements. -/
theorem exists_first_highest
    (h : l ≠ []) :
    ∃ front m back, l = front ++ m :: back ∧ (∀ x ∈ front, x < m) ∧ ∀ x ∈ back, x ≤ m := by
  induction l with
  | nil =>
      exact absurd rfl h
  | cons a l ih =>
      by_cases hl : l = []
      · subst hl
        exact ⟨[], a, [], rfl, by simp, by simp⟩
      · obtain ⟨front, m, back, rfl, hfront, hback⟩ := ih hl
        by_cases ham : a < m
        · refine ⟨a :: front, m, back, rfl, ?_, hback⟩
          exact List.forall_mem_cons.mpr ⟨ham, hfront⟩
        · have hma : m ≤ a := not_lt.mp ham
          refine ⟨[], a, front ++ m :: back, rfl, by simp, fun x hx => ?_⟩
          rcases List.mem_append.mp hx with hx | hx
          · exact (hfront x hx).le.trans hma
          · rcases List.mem_cons.mp hx with rfl | hx
            · exact hma
            · exact (hback x hx).trans hma

section Split

variable (hfront : ∀ x ∈ front, x < m) (hback : ∀ x ∈ back, x ≤ m)

include hfront hback

theorem highest_split :
    highest (front ++ m :: back) = m := by
  have hle : highest front ≤ m := highest_le_iff.mpr fun x hx => (hfront x hx).le
  have hle' : highest back ≤ m := highest_le_iff.mpr hback
  rw [highest_append]
  change max (highest front) (max m (highest back)) = m
  rw [max_eq_left hle', max_eq_right hle]

/-- The second highest element is in front of the first of the highest ones, or
behind it. -/
theorem second_split :
    second (front ++ m :: back) = max (highest front) (highest back) := by
  have hnot : m ∉ front := fun h => lt_irrefl m (hfront m h)
  rw [second, highest_split hfront hback, List.erase_append_right _ hnot, List.erase_cons_head,
    highest_append]

end Split

omit [OrderBot α] in
/-- Nothing changes behind the highest element. -/
theorem foldl_step_of_le
    {s : α × α}
    (h : ∀ x ∈ l, x ≤ s.1) :
    l.foldl step s = s := by
  induction l with
  | nil =>
      rfl
  | cons y l ih =>
      have hy : ¬ s.1 < y := not_lt.mpr (h y List.mem_cons_self)
      rw [List.foldl_cons, step, if_neg hy]
      exact ih fun x hx => h x (List.mem_cons_of_mem y hx)

theorem scan_concat
    (l : List α) (x : α) :
    scan (l ++ [x]) = step (scan l) x := by
  rw [scan, List.foldl_append]
  rfl

theorem scan_fst
    (l : List α) :
    (scan l).1 = highest l := by
  induction l using List.reverseRecOn with
  | nil =>
      rfl
  | append_singleton l x ih =>
      rw [scan_concat, highest_append, step, ih]
      change _ = max (highest l) (max x ⊥)
      rw [max_bot_right]
      split
      · rename_i hlt
        exact (max_eq_right hlt.le).symm
      · rename_i hle
        rw [ih]
        exact (max_eq_left (not_lt.mp hle)).symm

/-- The pass keeps the highest element in front of the first of the highest
ones. -/
theorem scan_snd_split
    (hfront : ∀ x ∈ front, x < m)
    (hback : ∀ x ∈ back, x ≤ m) :
    (scan (front ++ m :: back)).2 = highest front := by
  have hsplit : scan (front ++ m :: back) = back.foldl step (step (scan front) m) := by
    rw [scan, List.foldl_append]
    rfl
  rw [hsplit]
  by_cases hlt : highest front < m
  · have hstep : step (scan front) m = (m, highest front) := by
      rw [step, scan_fst, if_pos hlt]
    rw [hstep, foldl_step_of_le hback]
  · -- the highest element is the least one of the order
    have hnil : front = [] := by
      by_contra hne
      obtain ⟨f, n, b, rfl, hf, hb⟩ := exists_first_highest hne
      refine hlt ?_
      rw [highest_split hf hb]
      exact hfront n (List.mem_append_right f List.mem_cons_self)
    subst hnil
    have hstep : step (scan []) m = scan ([] : List α) := if_neg hlt
    have hbot : m ≤ ⊥ := not_lt.mp hlt
    rw [hstep, foldl_step_of_le fun x hx => (hback x hx).trans hbot]
    rfl

/-- When the pass finds the second highest element. -/
theorem scan_snd_eq_second_iff
    (l : List α) :
    (scan l).2 = second l ↔ Ascends l := by
  have hiff : ∀ {front m back}, l = front ++ m :: back → (∀ x ∈ front, x < m) →
      (∀ x ∈ back, x ≤ m) → ((scan l).2 = second l ↔ ∀ x ∈ back, x ≤ highest front) := by
    rintro front m back rfl hfront hback
    rw [scan_snd_split hfront hback, second_split hfront hback, eq_comm, max_eq_left_iff,
      highest_le_iff]
  constructor
  · exact fun h front m back hl hfront hback => (hiff hl hfront hback).mp h
  · intro h
    by_cases hl : l = []
    · subst hl
      rfl
    · obtain ⟨front, m, back, hsplit, hfront, hback⟩ := exists_first_highest hl
      exact (hiff hsplit hfront hback).mpr (h front m back hsplit hfront hback)

end RunnerUp
