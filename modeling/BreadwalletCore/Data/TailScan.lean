import Mathlib.Data.List.DropRight
import Mathlib.Data.List.Perm.Basic
import Mathlib.Tactic

/-!
# Scanning a sorted list from its end

Two loops over an array that is kept sorted by a key start at the end and stop
at the first element that fails a test: insertion (shift while the test holds,
then drop the new element in the gap) and range queries (collect while the
test holds).  Both are stated with `List.rtakeWhile` and `List.rdropWhile`.

The insertion test may be any relation that agrees with the key where keys
differ.  Nothing is assumed about it on equal keys, so a tie breaker that is
not transitive still keeps the list sorted.
-/

namespace TailScan

universe u v

variable {α : Type u}

/-- Insert `x` in front of the trailing elements that satisfy `p`. -/
def insert (p : α → Bool) (x : α) (l : List α) : List α :=
  l.rdropWhile p ++ x :: l.rtakeWhile p

/-- Insertion only adds its element. -/
theorem insert_perm
    (p : α → Bool) (x : α) (l : List α) :
    List.Perm (insert p x l) (x :: l) := by
  have h : List.Perm (l.rdropWhile p ++ x :: l.rtakeWhile p)
      (x :: (l.rdropWhile p ++ l.rtakeWhile p)) :=
    List.perm_middle
  rwa [List.rdropWhile_append_rtakeWhile] at h

@[simp] theorem mem_insert
    {p : α → Bool} {x y : α} {l : List α} :
    y ∈ insert p x l ↔ y = x ∨ y ∈ l := by
  rw [(insert_perm p x l).mem_iff, List.mem_cons]

section Sorted

variable {κ : Type v} [LinearOrder κ]
variable {key : α → κ}

/-- Sortedness by a key, without a condition on equal keys. -/
def SortedBy (key : α → κ) (l : List α) : Prop :=
  l.Pairwise (fun a b => key a ≤ key b)

theorem SortedBy.sublist
    {l₁ l₂ : List α}
    (h : SortedBy key l₂)
    (hsub : List.Sublist l₁ l₂) :
    SortedBy key l₁ :=
  List.Pairwise.sublist hsub h

/-- On a sorted list the trailing elements above a bound are all of them. -/
theorem rtakeWhile_eq_filter
    {l : List α} {p : α → Bool}
    (hsorted : SortedBy key l)
    (hup : ∀ a b, key a ≤ key b → p a = true → p b = true) :
    l.rtakeWhile p = l.filter p := by
  induction l using List.reverseRecOn with
  | nil =>
      rfl
  | append_singleton l x ih =>
      have hl : SortedBy key l := hsorted.sublist (List.sublist_append_left l [x])
      by_cases hx : p x = true
      · rw [List.rtakeWhile_concat_pos _ _ _ hx, ih hl, List.filter_append]
        simp [hx]
      · have hnone : ∀ a ∈ l, ¬ p a = true := by
          intro a ha hpa
          have hle : key a ≤ key x :=
            (List.pairwise_append.mp hsorted).2.2 a ha x (by simp)
          exact hx (hup a x hle hpa)
        rw [List.rtakeWhile_concat_neg _ _ _ hx, List.filter_append,
          List.filter_eq_nil_iff.mpr hnone]
        simp [hx]

/--
Insertion keeps a list sorted whenever the test holds above the new key and
fails below it, whatever it answers on an equal key.
-/
theorem SortedBy.insert
    {l : List α} {p : α → Bool} {x : α}
    (hsorted : SortedBy key l)
    (habove : ∀ a, key x < key a → p a = true)
    (hbelow : ∀ a, key a < key x → p a = false) :
    SortedBy key (TailScan.insert p x l) := by
  have hparts : SortedBy key (l.rdropWhile p ++ l.rtakeWhile p) := by
    rwa [List.rdropWhile_append_rtakeWhile]
  obtain ⟨hfront, hback, hcross⟩ := List.pairwise_append.mp hparts
  have hfront_le : ∀ a ∈ l.rdropWhile p, key a ≤ key x := by
    intro a ha
    have hne : l.rdropWhile p ≠ [] := List.ne_nil_of_mem ha
    -- the scan stopped at the last element of the front part
    have hlast := List.rdropWhile_last_not p l hne
    have hlast_le : key ((l.rdropWhile p).getLast hne) ≤ key x :=
      not_lt.mp (fun h => hlast (habove _ h))
    rcases List.mem_iff_getElem.mp ha with ⟨i, hi, rfl⟩
    by_cases hi' : i + 1 = (l.rdropWhile p).length
    · simpa [List.getLast_eq_getElem, ← hi'] using hlast_le
    · refine le_trans ?_ hlast_le
      rw [List.getLast_eq_getElem]
      exact List.pairwise_iff_getElem.mp hfront i _ hi (by omega) (by omega)
  have hback_ge : ∀ a ∈ l.rtakeWhile p, key x ≤ key a := by
    intro a ha
    have hpa := List.mem_rtakeWhile_imp ha
    refine not_lt.mp (fun h => ?_)
    rw [hbelow a h] at hpa
    cases hpa
  refine List.pairwise_append.mpr ⟨hfront, List.pairwise_cons.mpr ⟨hback_ge, hback⟩, ?_⟩
  intro a ha b hb
  rcases List.mem_cons.mp hb with rfl | hb
  · exact hfront_le a ha
  · exact hcross a ha b hb

end Sorted

end TailScan
