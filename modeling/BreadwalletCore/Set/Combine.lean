import BreadwalletCore.Set.Table

/-!
# Asking a set, and combining two sets

What `BRSetGet` and `BRSetIterate` return, and the items of a set after
`BRSetUnion`, `BRSetMinus` and `BRSetIntersect` with another one.
-/

namespace BreadwalletCore

namespace BRSet

variable {α : Type} {F : SetFunctions α} {set set₀ otherSet : BRSet α} {t : α} {i fuel : ℕ}

/-! ### Intersecting in place -/

/-- In the middle of `BRSetIntersect`: the items in front of bucket `i` are in
the other set, and no such item was removed. -/
structure Intersecting (F : SetFunctions α) (set₀ otherSet : BRSet α) (i : ℕ) (set : BRSet α) :
    Prop where
  ok : Ok F set
  size : set.size = set₀.size
  old : ∀ a ∈ set.items, a ∈ set₀.items
  kept : ∀ a ∈ set₀.items, ∀ c ∈ otherSet.items, F.Rel c a → a ∈ set.items
  front : ∀ j a, j < i → set.bucket j = some a → ∃ c ∈ otherSet.items, F.Rel c a

theorem Intersecting.skip
    (h : Intersecting F set₀ otherSet i set)
    (hi : ∀ a, set.bucket i = some a → ∃ c ∈ otherSet.items, F.Rel c a) :
    Intersecting F set₀ otherSet (i + 1) set := by
  refine ⟨h.ok, h.size, h.old, h.kept, fun j a hj ha => ?_⟩
  rcases Nat.lt_succ_iff_lt_or_eq.mp hj with hlt | rfl
  · exact h.front j a hlt ha
  · exact hi a ha

/-- The removal of an item brings none in front of bucket `i` that was not
looked at. -/
theorem Intersecting.drop
    (h : Intersecting F set₀ otherSet i set)
    {cleaned : BRSet α}
    (hclean : Cleaned F set i t cleaned)
    (ht : ¬ ∃ c ∈ otherSet.items, F.Rel c t) :
    Intersecting F set₀ otherSet i cleaned := by
  refine ⟨hclean.ok h.ok, hclean.size.trans h.size, ?_, ?_, ?_⟩
  · intro a ha
    exact h.old a (hclean.mem_items.mp ha).1
  · intro a ha c hc hca
    refine hclean.mem_items.mpr ⟨h.kept a ha c hc hca, fun hat => ht ⟨c, hc, ?_⟩⟩
    exact F.equivalence.trans hca hat
  · intro j a hj ha
    have hlt := lt_size_of_bucket ha
    rw [hclean.size] at hlt
    obtain ⟨j₀, -, ha₀, hfront⟩ := hclean.removed.back j a hlt ha
    exact h.front j₀ a (hfront hj) ha₀

variable [DecidableEq α]

/-! ### Asking -/

theorem Ok.get
    (hok : Ok F set)
    (x : α) :
    ∃ t, BRSet.get F set x = .ok t ∧ ∀ c, t = some c ↔ c ∈ set.items ∧ F.Rel c x := by
  obtain ⟨i, hend⟩ := hok.exists_endsAt x
  refine ⟨set.bucket i, ?_, hend.bucket_eq_some hok.valid⟩
  rw [BRSet.get, hend.search_eq]
  rfl

theorem Ok.contains
    (hok : Ok F set)
    (x : α) :
    ∃ b, BRSet.contains F set x = .ok b ∧ (b = true ↔ ∃ c ∈ set.items, F.Rel c x) := by
  obtain ⟨t, hget, ht⟩ := hok.get x
  refine ⟨t.isSome, ?_, ?_⟩
  · rw [BRSet.contains, hget]
    rfl
  · rw [Option.isSome_iff_exists]
    exact exists_congr ht

/-- `BRSetIterate` returns the item behind `previous`. -/
theorem Ok.iterate
    (hok : Ok F set)
    (x : α) :
    ∃ t front behind, BRSet.iterate F set (some x) = .ok t ∧ set.items = front ++ behind ∧
      t = behind.head? ∧ ∀ c ∈ set.items, F.Rel c x → front.getLast? = some c := by
  obtain ⟨i, hend⟩ := hok.exists_endsAt x
  refine ⟨_, (set.table.take (i + 1)).filterMap id, (set.table.drop (i + 1)).filterMap id, ?_, ?_,
    List.head?_filterMap.symm, ?_⟩
  · rw [BRSet.iterate, hend.search_eq]
    rfl
  · rw [← List.filterMap_append, List.take_append_drop, items]
  · intro c hc hcx
    have hi := (hend.bucket_eq_some hok.valid c).mpr ⟨hc, hcx⟩
    rw [BRSet.bucket_eq_some] at hi
    rw [List.take_add_one, hi, Option.toList_some, List.filterMap_append]
    exact List.getLast?_concat

/-! ### Combining -/

/-- `BRSetUnion` adds or replaces the items of the other set. -/
theorem Ok.union
    (hok : Ok F set)
    (hother : Ok F otherSet) :
    Returns (maxItems largestSize < set.items.length + otherSet.items.length)
      (BRSet.union F set otherSet) fun s => Ok F s ∧ Merged F set.items otherSet.items s := by
  rw [BRSet.union, unionWith]
  refine (Returns.foldlM (fun done s => Ok F s ∧ done ⊆ otherSet.items ∧
    Merged F set.items done s) ?_ ?_).mono fun s hs => ⟨hs.1, hs.2.2⟩
  · rintro done x s hx ⟨hoks, hsub, hmerged⟩
    have hbig : maxItems largestSize ≤ s.items.length ∧ (∀ c ∈ s.items, ¬ F.Rel c x) →
        maxItems largestSize < set.items.length + otherSet.items.length := by
      rintro ⟨hle, hnew⟩
      have hnodup : (x :: s.items).Nodup :=
        List.nodup_cons.mpr ⟨fun hxs => hnew x hxs (F.equivalence.refl x), nodup_items hoks.valid⟩
      have hin : x :: s.items ⊆ set.items ++ otherSet.items := by
        refine List.cons_subset.mpr ⟨List.mem_append_right _ hx, fun a ha => ?_⟩
        rcases (hmerged a).mp ha with ha | ⟨ha, -⟩
        · exact List.mem_append_right _ (hsub ha)
        · exact List.mem_append_left _ ha
      have hlen := (hnodup.subperm hin).length_le
      rw [List.length_cons, List.length_append] at hlen
      omega
    refine ((hoks.add x).weaken hbig).map fun r hadded => ⟨hadded.ok, ?_, ?_⟩
    · exact List.append_subset.mpr ⟨hsub, List.cons_subset.mpr ⟨hx, List.nil_subset _⟩⟩
    · exact hmerged.concat (fun a ha => eq_of_rel hother.valid (hsub ha) hx) hadded.items
  · exact ⟨hok, List.nil_subset _, fun a => by simp⟩

/-- `BRSetMinus` removes the items of the other set. -/
theorem Ok.minus
    (hok : Ok F set)
    (otherSet : BRSet α) :
    Returns False (BRSet.minus F set otherSet) fun s =>
      Ok F s ∧ ∀ a, a ∈ s.items ↔ a ∈ set.items ∧ ∀ b ∈ otherSet.items, ¬ F.Rel a b := by
  rw [BRSet.minus]
  refine Returns.foldlM (fun done s => Ok F s ∧
    ∀ a, a ∈ s.items ↔ a ∈ set.items ∧ ∀ b ∈ done, ¬ F.Rel a b) ?_ ?_
  · rintro done x s - ⟨hoks, hitems⟩
    obtain ⟨r, hrun, hdeleted⟩ := hoks.remove x
    refine Or.inl ⟨r.1, by rw [hrun]; rfl, hdeleted.ok, fun a => ?_⟩
    rw [hdeleted.items, hitems, and_assoc]
    refine and_congr_right fun _ => ?_
    simp only [List.mem_append, List.mem_singleton, or_imp, forall_and, forall_eq]
  · exact ⟨hok, fun a => by simp⟩

theorem intersectFrom_spec
    (hother : Ok F otherSet)
    (h : Intersecting F set₀ otherSet i set)
    (hfuel : set₀.size - i + set.itemCount < fuel) :
    ∃ s, intersectFrom F otherSet set₀.size fuel set i = .ok s ∧
      Intersecting F set₀ otherSet set₀.size s := by
  induction fuel generalizing i set with
  | zero =>
      omega
  | succ fuel ih =>
      rw [intersectFrom]
      by_cases hi : i < set₀.size
      · rw [if_pos hi]
        cases hb : set.bucket i with
        | none =>
            exact ih (h.skip fun a ha => by rw [hb] at ha; cases ha) (by omega)
        | some t =>
            obtain ⟨b, hrun, hb'⟩ := hother.contains t
            dsimp only
            rw [hrun, Machine.ok_bind]
            cases b with
            | true =>
                refine ih (h.skip fun a ha => ?_) (by omega)
                rw [hb, Option.some_inj] at ha
                exact ha ▸ hb'.mp rfl
            | false =>
                have hmem : t ∈ set.items := mem_items.mpr ⟨i, lt_size_of_bucket hb, hb⟩
                obtain ⟨d, hfound, hd⟩ := h.ok.valid.found_hit F.equivalence home_eq
                  (lt_size_of_bucket hb) hb (F.equivalence.refl t)
                obtain ⟨cleaned, hremove, hclean⟩ := h.ok.remove_bucket ⟨d, hfound, hd.symm⟩ hb
                have hdrop := h.drop hclean fun hc => Bool.false_ne_true (hb'.mpr hc)
                have hless := hclean.less
                simp only [Bool.false_eq_true, if_false]
                rw [hremove, Machine.ok_bind]
                exact ih hdrop (by dsimp only; omega)
      · rw [if_neg hi]
        refine ⟨set, rfl, h.ok, h.size, h.old, h.kept, fun j a hj ha => ?_⟩
        exact h.front j a (by omega) ha

/-- `BRSetIntersect` removes the items that are not in the other set. -/
theorem Ok.intersect
    (hok : Ok F set)
    (hother : Ok F otherSet) :
    ∃ s, BRSet.intersect F set otherSet = .ok s ∧ Ok F s ∧
      ∀ a, a ∈ s.items ↔ a ∈ set.items ∧ ∃ c ∈ otherSet.items, F.Rel c a := by
  have hstart : Intersecting F set otherSet 0 set :=
    ⟨hok, rfl, fun _ ha => ha, fun _ ha _ _ _ => ha, fun _ _ hj => absurd hj (Nat.not_lt_zero _)⟩
  obtain ⟨s, hrun, hdone⟩ := intersectFrom_spec hother hstart (Nat.lt_succ_self _)
  refine ⟨s, hrun, hdone.ok, fun a => ⟨fun ha => ⟨hdone.old a ha, ?_⟩, ?_⟩⟩
  · obtain ⟨j, hj, haj⟩ := mem_items.mp ha
    exact hdone.front j a (hdone.size ▸ hj) haj
  · rintro ⟨ha, c, hc, hca⟩
    exact hdone.kept a ha c hc hca

end BRSet

end BreadwalletCore
