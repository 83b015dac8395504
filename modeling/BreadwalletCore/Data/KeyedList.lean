import Mathlib.Data.List.Nodup
import Mathlib.Tactic

/-!
# Lists as sets keyed by a function

A hash set whose equality only looks at part of its items is a finite map from
keys to items.  This module represents such a set by a list and a function
`key`, and keeps every statement in terms of `get`: what is found under a key
after an item has been added, removed or rewritten in place.

The rewriting operation `modify` is what a write through a shared pointer does
to every container that holds the pointer.
-/

namespace KeyedList

universe u v

variable {α : Type u} {κ : Type v} [DecidableEq κ]

section Defs

variable (key : α → κ)

/-- The item found under a key. -/
def get (l : List α) (k : κ) : Option α :=
  l.find? (fun a => key a = k)

/-- Add an item, replacing the one with the same key. -/
def add (l : List α) (a : α) : List α :=
  a :: l.filter (fun b => key b ≠ key a)

/-- Remove the item under a key. -/
def remove (l : List α) (k : κ) : List α :=
  l.filter (fun b => key b ≠ k)

/-- Rewrite, in place, the items whose key satisfies `p`. -/
def modify (p : κ → Bool) (f : α → α) (l : List α) : List α :=
  l.map (fun a => if p (key a) then f a else a)

/-- Remove the last item under a key, as a scan from the end does. -/
def eraseLast (l : List α) (k : κ) : List α :=
  (l.reverse.eraseP (fun a => key a = k)).reverse

end Defs

variable {key : α → κ}

theorem key_of_get
    {l : List α} {k : κ} {a : α}
    (h : get key l k = some a) :
    key a = k := by
  simpa using List.find?_some h

theorem mem_of_get
    {l : List α} {k : κ} {a : α}
    (h : get key l k = some a) :
    a ∈ l :=
  List.mem_of_find?_eq_some h

@[simp] theorem get_nil
    (k : κ) :
    get key ([] : List α) k = none := by
  rfl

theorem get_cons
    (a : α) (l : List α) (k : κ) :
    get key (a :: l) k =
      if key a = k then some a else get key l k := by
  by_cases h : key a = k <;> simp [get, h]

/-- With distinct keys, `get` finds exactly the members. -/
theorem get_eq_some_of_mem
    {l : List α} {a : α}
    (hnodup : (l.map key).Nodup)
    (ha : a ∈ l) :
    get key l (key a) = some a := by
  induction l with
  | nil =>
      cases ha
  | cons b l ih =>
      rw [List.map_cons, List.nodup_cons] at hnodup
      rw [get_cons]
      rcases List.mem_cons.mp ha with rfl | ha
      · simp
      · have hne : key b ≠ key a := by
          intro h
          exact hnodup.1 (h ▸ List.mem_map_of_mem ha)
        simp [hne, ih hnodup.2 ha]

theorem get_filter_ne
    (l : List α) (k k' : κ) :
    get key (l.filter (fun b => key b ≠ k')) k =
      if k = k' then none else get key l k := by
  induction l with
  | nil =>
      simp
  | cons b l ih =>
      by_cases hb : key b = k'
      · rw [List.filter_cons_of_neg (by simpa using hb), ih, get_cons]
        by_cases hk : k = k'
        · simp [hk]
        · have hbk : key b ≠ k := fun h => hk (h.symm.trans hb)
          simp [hk, hbk]
      · rw [List.filter_cons_of_pos (by simpa using hb), get_cons, get_cons, ih]
        by_cases hk : k = k'
        · subst hk
          simp [hb]
        · simp [hk]

/-- What is found after an item has been added. -/
theorem get_add
    (l : List α) (a : α) (k : κ) :
    get key (add key l a) k =
      if key a = k then some a else get key l k := by
  rw [add, get_cons, get_filter_ne]
  by_cases h : key a = k
  · simp [h]
  · have hk : k ≠ key a := fun hk => h hk.symm
    simp [h, hk]

/-- What is found after a key has been removed. -/
theorem get_remove
    (l : List α) (k k' : κ) :
    get key (remove key l k') k =
      if k = k' then none else get key l k :=
  get_filter_ne l k k'

/-- What is found after a write through the keys satisfying `p`. -/
theorem get_modify
    {f : α → α}
    (hkey : ∀ a, key (f a) = key a)
    (p : κ → Bool) (l : List α) (k : κ) :
    get key (modify key p f l) k =
      (get key l k).map (fun a => if p k then f a else a) := by
  induction l with
  | nil =>
      simp [modify]
  | cons b l ih =>
      have hb : key (if p (key b) then f b else b) = key b := by
        split <;> simp [hkey]
      rw [modify] at ih ⊢
      rw [List.map_cons, get_cons, get_cons, hb, ih]
      by_cases h : key b = k
      · simp [h]
      · simp [h]

omit [DecidableEq κ] in
/-- A write that keeps the keys does not change the list of keys. -/
theorem map_key_modify
    {f : α → α}
    (hkey : ∀ a, key (f a) = key a)
    (p : κ → Bool) (l : List α) :
    (modify key p f l).map key = l.map key := by
  rw [modify, List.map_map]
  apply List.map_congr_left
  intro a _
  by_cases h : p (key a) <;> simp [h, hkey]

omit [DecidableEq κ] in
theorem mem_modify
    {f : α → α} {p : κ → Bool} {l : List α} {a : α} :
    a ∈ modify key p f l ↔
      ∃ b ∈ l, (if p (key b) then f b else b) = a := by
  simp [modify]

/-- With distinct keys, erasing the last item under a key removes the key. -/
theorem eraseLast_eq_filter
    {l : List α}
    (hnodup : (l.map key).Nodup)
    (k : κ) :
    eraseLast key l k = l.filter (fun a => key a ≠ k) := by
  induction l using List.reverseRecOn with
  | nil =>
      rfl
  | append_singleton l a ih =>
      rw [List.map_append, List.nodup_append] at hnodup
      rw [eraseLast, List.reverse_append]
      by_cases h : key a = k
      · have hl : ∀ b ∈ l, key b ≠ k := by
          intro b hb hbk
          exact hnodup.2.2 (key b) (List.mem_map_of_mem hb)
            (key a) (by simp) (hbk.trans h.symm)
        rw [List.filter_append, List.filter_eq_self.mpr (by simpa using hl)]
        simp [h]
      · rw [List.filter_append, ← ih hnodup.1, eraseLast]
        simp [h]

theorem eraseLast_sublist
    (l : List α) (k : κ) :
    List.Sublist (eraseLast key l k) l := by
  rw [eraseLast, ← List.reverse_sublist, List.reverse_reverse]
  exact List.eraseP_sublist

end KeyedList
