import Mathlib.Data.List.MinMax
import Mathlib.Tactic

/-!
# Append-only tables of numbered rows

Every row of the table has a key and a version.  The table is *numbered* when
the versions of each key, in the order of the rows, are `1, 2, …, n`; a row is
then added under the next number of its key and rows never change.

The lemmas say what the usual queries find in a numbered table: the row with
the greatest version is the last one of its key, a version selects exactly one
row, and the rows that hold the greatest version of their key list every key
once.
-/

namespace VersionedTable

universe u v

variable {ρ : Type u} {κ : Type v} [DecidableEq κ]

section Defs

variable (key : ρ → κ) (version : ρ → ℕ)

/-- The rows of a key, in the order they were added. -/
def rowsOf (l : List ρ) (k : κ) : List ρ :=
  l.filter (fun r => key r = k)

/-- The number of versions of a key. -/
def count (l : List ρ) (k : κ) : ℕ :=
  (rowsOf key l k).length

/-- The versions of every key are `1, …, n`. -/
def Numbered (l : List ρ) : Prop :=
  ∀ k, (rowsOf key l k).map version = List.range' 1 (count key l k)

end Defs

variable {key : ρ → κ} {version : ρ → ℕ} {l : List ρ}

theorem mem_rowsOf
    {r : ρ} {k : κ} :
    r ∈ rowsOf key l k ↔ r ∈ l ∧ key r = k := by
  simp [rowsOf]

theorem rowsOf_concat_self
    (r : ρ) :
    rowsOf key (l ++ [r]) (key r) = rowsOf key l (key r) ++ [r] := by
  simp [rowsOf]

theorem rowsOf_concat_other
    {r : ρ} {k : κ}
    (h : key r ≠ k) :
    rowsOf key (l ++ [r]) k = rowsOf key l k := by
  simp [rowsOf, h]

theorem count_concat_self
    (r : ρ) :
    count key (l ++ [r]) (key r) = count key l (key r) + 1 := by
  simp [count, rowsOf_concat_self]

theorem numbered_nil : Numbered key version [] := by
  intro k
  rfl

/-- A row under the next version of its key keeps the table numbered. -/
theorem Numbered.concat
    {r : ρ}
    (h : Numbered key version l)
    (hr : version r = count key l (key r) + 1) :
    Numbered key version (l ++ [r]) := by
  intro k
  by_cases hk : key r = k
  · subst hk
    rw [rowsOf_concat_self, count_concat_self, List.map_append, h, List.range'_concat,
      List.map_singleton, hr]
    simp [Nat.add_comm]
  · rw [count, rowsOf_concat_other hk]
    exact h k

/-- The row at a position has the version behind that position. -/
theorem Numbered.version_getElem
    {k : κ} {i : ℕ} {r : ρ}
    (h : Numbered key version l)
    (hr : (rowsOf key l k)[i]? = some r) :
    version r = i + 1 := by
  have hi : i < count key l k := (List.getElem?_eq_some_iff.mp hr).1
  have hmap : ((rowsOf key l k).map version)[i]? = some (version r) := by
    simp [hr]
  rw [h, List.getElem?_range' hi] at hmap
  have := Option.some.inj hmap
  omega

theorem Numbered.version_pos
    {r : ρ}
    (h : Numbered key version l)
    (hr : r ∈ l) :
    1 ≤ version r ∧ version r ≤ count key l (key r) := by
  have hmem : version r ∈ (rowsOf key l (key r)).map version :=
    List.mem_map_of_mem (mem_rowsOf.mpr ⟨hr, rfl⟩)
  rw [h, List.mem_range'_1] at hmem
  omega

/-- The last row of a key is the one with the greatest version. -/
theorem Numbered.argmax_eq
    (h : Numbered key version l)
    (k : κ) :
    (rowsOf key l k).argmax version = (rowsOf key l k).getLast? := by
  rcases (rowsOf key l k).eq_nil_or_concat with hnil | ⟨front, r, hl⟩
  · rw [hnil]
    rfl
  · rw [List.concat_eq_append] at hl
    rw [hl, List.getLast?_concat, List.argmax_concat]
    have hlast : version r = front.length + 1 := h.version_getElem (by rw [hl]; simp)
    cases hfront : front.argmax version with
    | none =>
        rfl
    | some c =>
        obtain ⟨i, hi, hci⟩ := List.getElem_of_mem (List.argmax_mem hfront)
        have hc : version c = i + 1 := by
          refine h.version_getElem (k := k) ?_
          rw [hl, List.getElem?_append_left hi, List.getElem?_eq_getElem hi, hci]
        have hlt : version c < version r := by
          omega
        simp [hlt]

theorem Numbered.getLast?_version
    {k : κ} {r : ρ}
    (h : Numbered key version l)
    (hr : (rowsOf key l k).getLast? = some r) :
    version r = count key l k := by
  rw [List.getLast?_eq_getElem?] at hr
  have hlt := (List.getElem?_eq_some_iff.mp hr).1
  have hr' := h.version_getElem hr
  rw [count]
  omega

/-- A version selects the row at its place, and nothing where there is none. -/
theorem Numbered.filter_version
    (h : Numbered key version l)
    (k : κ) (i : ℕ) :
    l.filter (fun r => key r = k ∧ version r = i + 1) =
      ((rowsOf key l k)[i]?).toList := by
  have hsplit : l.filter (fun r => key r = k ∧ version r = i + 1) =
      (rowsOf key l k).filter (fun r => version r = i + 1) := by
    rw [rowsOf, List.filter_filter]
    refine List.filter_congr ?_
    intro r _
    rw [Bool.decide_and, Bool.and_comm]
  rw [hsplit]
  clear hsplit
  have hindex : ∀ j x, (rowsOf key l k)[j]? = some x → version x = j + 1 :=
    fun j x hx => h.version_getElem hx
  generalize rowsOf key l k = rows at hindex
  induction rows using List.reverseRecOn with
  | nil =>
      rfl
  | append_singleton front r ih =>
      have hfront : ∀ j x, front[j]? = some x → version x = j + 1 := by
        intro j x hx
        have hj := (List.getElem?_eq_some_iff.mp hx).1
        exact hindex j x (by rw [List.getElem?_append_left hj, hx])
      have hlast : version r = front.length + 1 := hindex front.length r (by simp)
      rw [List.filter_append, ih hfront]
      rcases Nat.lt_trichotomy i front.length with hlt | rfl | hgt
      · have hne : ¬ front.length = i := by
          omega
        simp [hlast, hne, List.getElem?_append_left hlt]
      · simp [hlast]
      · have hne : ¬ front.length = i := by
          omega
        have hout : (front ++ [r])[i]? = none := by
          rw [List.getElem?_eq_none]
          simp only [List.length_append, List.length_singleton]
          omega
        have hout' : front[i]? = none := by
          rw [List.getElem?_eq_none]
          omega
        simp [hlast, hne, hout, hout']

/-! ## The latest row of every key -/

section Latest

variable (key version) in
/-- The rows that hold the greatest version of their key. -/
def latestRows (l : List ρ) : List ρ :=
  l.filter (fun r => (rowsOf key l (key r)).all (fun r' => version r' ≤ version r))

/-- The latest rows are the last rows of the keys. -/
theorem Numbered.mem_latestRows
    {r : ρ}
    (h : Numbered key version l) :
    r ∈ latestRows key version l ↔ (rowsOf key l (key r)).getLast? = some r := by
  rw [latestRows, List.mem_filter, List.all_eq_true]
  constructor
  · rintro ⟨hr, hmax⟩
    have hmem : r ∈ rowsOf key l (key r) := mem_rowsOf.mpr ⟨hr, rfl⟩
    obtain ⟨i, hi, hri⟩ := List.getElem_of_mem hmem
    have hversion := h.version_getElem (List.getElem?_eq_some_iff.mpr ⟨hi, hri⟩)
    obtain ⟨z, hz⟩ : ∃ z, (rowsOf key l (key r)).getLast? = some z :=
      ⟨_, List.getLast?_eq_some_getLast (List.ne_nil_of_mem hmem)⟩
    have hle := hmax z (List.mem_of_getLast? hz)
    have hz' := h.getLast?_version hz
    rw [decide_eq_true_eq, hz', count] at hle
    rw [List.getLast?_eq_getElem?, ← hri]
    have hlast : (rowsOf key l (key r)).length - 1 = i := by
      omega
    rw [hri, hlast]
    exact List.getElem?_eq_some_iff.mpr ⟨hi, hri⟩
  · intro hr
    have hmem := List.mem_of_getLast? hr
    refine ⟨(mem_rowsOf.mp hmem).1, ?_⟩
    intro x hx
    have hx' := mem_rowsOf.mp hx
    have hle := (h.version_pos hx'.1).2
    rw [decide_eq_true_eq, h.getLast?_version hr]
    rwa [hx'.2] at hle

/-- Every key is listed at most once. -/
theorem Numbered.latestRows_nodup
    (h : Numbered key version l) :
    ((latestRows key version l).map key).Nodup := by
  rw [List.Nodup, List.pairwise_map, List.pairwise_iff_forall_sublist]
  intro r r' hsub hkey
  have hr := h.mem_latestRows.mp (hsub.subset (by simp : r ∈ [r, r']))
  have hr' := h.mem_latestRows.mp (hsub.subset (by simp : r' ∈ [r, r']))
  have hrows : [r, r'].Sublist (rowsOf key l (key r)) := by
    have hfilter := (hsub.trans List.filter_sublist).filter (fun x => key x = key r)
    simpa [hkey, rowsOf] using hfilter
  have hversions := hrows.map version
  rw [h] at hversions
  have hnodup := hversions.nodup List.nodup_range'
  rw [← hkey, hr] at hr'
  simp [Option.some.inj hr'] at hnodup

end Latest

end VersionedTable
