import Mathlib.Tactic

/-!
# Linear probing

A table has `n` buckets, and every element a home bucket.  It is looked for
from its home on, around the table, up to an empty bucket.  The table is valid
if no bucket between the home of an element and its place is empty, and if no
two of its elements are related.

An element is removed by putting the elements behind it back, one after
another, up to the next empty bucket.  Seen from an empty bucket `e`, the table
is a line: no element stands in front of its home, and bucket `d` of the line
is `(e + d) % n`.
-/

namespace ProbeTable

universe u

variable {α : Type u} {n : ℕ}

/-- The first bucket from `i` on that stops the search. -/
def probe (n : ℕ) (stop : ℕ → Bool) : ℕ → ℕ → Option ℕ
  | 0, _ => none
  | fuel + 1, i => if stop i then some i else probe n stop fuel ((i + 1) % n)

/-- The search ends at the first bucket that stops it. -/
theorem probe_eq
    {stop : ℕ → Bool} {fuel i d : ℕ}
    (hi : i < n)
    (hd : d < fuel)
    (hstop : stop ((i + d) % n) = true)
    (hgo : ∀ d' < d, stop ((i + d') % n) = false) :
    probe n stop fuel i = some ((i + d) % n) := by
  induction fuel generalizing i d with
  | zero =>
      omega
  | succ fuel ih =>
      rw [probe]
      cases d with
      | zero =>
          rw [Nat.add_zero, Nat.mod_eq_of_lt hi] at hstop
          rw [if_pos hstop, Nat.add_zero, Nat.mod_eq_of_lt hi]
      | succ d =>
          have hfirst := hgo 0 (Nat.succ_pos d)
          rw [Nat.add_zero, Nat.mod_eq_of_lt hi] at hfirst
          have hshift : ∀ k, ((i + 1) % n + k) % n = (i + (k + 1)) % n := by
            intro k
            rw [Nat.mod_add_mod]
            congr 1
            omega
          rw [hfirst, if_neg Bool.false_ne_true, ← hshift d]
          refine ih (Nat.mod_lt _ (by omega)) (by omega) ?_ ?_
          · rwa [hshift]
          · intro d' hd'
            rw [hshift]
            exact hgo (d' + 1) (by omega)

section Validity

variable (n) (home : α → ℕ) (rel : α → α → Prop)

/-- From the home of `a` to bucket `j` there is no empty bucket. -/
def Reached (T : ℕ → Option α) (a : α) (j : ℕ) : Prop :=
  ∃ d < n, (home a + d) % n = j ∧ ∀ d' < d, T ((home a + d') % n) ≠ none

/-- Every element is reached, and no two are related. -/
structure Valid (T : ℕ → Option α) : Prop where
  reached : ∀ j a, j < n → T j = some a → Reached n home T a j
  unique : ∀ i j a b, i < n → j < n → T i = some a → T j = some b → rel a b → i = j

/-- The table has the element. -/
def Holds (T : ℕ → Option α) (a : α) : Prop :=
  ∃ j < n, T j = some a

/-- What is found for `x` at a distance from its home: an empty bucket, or a
related element, and neither of them before. -/
structure Found (T : ℕ → Option α) (x : α) (d : ℕ) : Prop where
  lt : d < n
  stop : ∀ a, T ((home x + d) % n) = some a → rel a x
  go : ∀ d' < d, ∃ a, T ((home x + d') % n) = some a ∧ ¬ rel a x

end Validity

theorem add_mod_inj
    {i d d' : ℕ}
    (hd : d < n)
    (hd' : d' < n)
    (h : (i + d) % n = (i + d') % n) :
    d = d' := by
  have hmod : d % n = d' % n := Nat.ModEq.add_left_cancel' i h
  rwa [Nat.mod_eq_of_lt hd, Nat.mod_eq_of_lt hd'] at hmod

/-- Every bucket stands at some distance from another. -/
theorem exists_distance
    {i j : ℕ}
    (hi : i < n)
    (hj : j < n) :
    ∃ d < n, (i + d) % n = j := by
  refine ⟨(j + (n - i)) % n, Nat.mod_lt _ (by omega), ?_⟩
  rw [Nat.add_mod_mod, show i + (j + (n - i)) = j + n by omega, Nat.add_mod_right,
    Nat.mod_eq_of_lt hj]

section Search

variable {home : α → ℕ} {rel : α → α → Prop} {T : ℕ → Option α} {x a : α} {d j : ℕ}

/-- A related element is found. -/
theorem Valid.found_hit
    (hrel : Equivalence rel)
    (hhome : ∀ a b, rel a b → home a = home b)
    (hvalid : Valid n home rel T)
    (hj : j < n)
    (hT : T j = some a)
    (hax : rel a x) :
    ∃ d, Found n home rel T x d ∧ (home x + d) % n = j := by
  obtain ⟨d, hd, rfl, hfull⟩ := hvalid.reached j a hj hT
  rw [hhome a x hax] at hT hfull ⊢
  refine ⟨d, ⟨hd, ?_, ?_⟩, rfl⟩
  · intro b hb
    rw [hT] at hb
    cases hb
    exact hax
  · intro d' hd'
    obtain ⟨b, hb⟩ := Option.ne_none_iff_exists'.mp (hfull d' hd')
    refine ⟨b, hb, fun hbx => ?_⟩
    have hsame := hvalid.unique _ _ b a (Nat.mod_lt _ (by omega)) (Nat.mod_lt _ (by omega)) hb hT
      (hrel.trans hbx (hrel.symm hax))
    have := add_mod_inj (by omega) hd hsame
    omega

/-- Without a related element an empty bucket is found. -/
theorem found_miss
    (hempty : ∃ e < n, T e = none)
    (hhome : home x < n)
    (hnone : ∀ a, Holds n T a → ¬ rel a x) :
    ∃ d, Found n home rel T x d ∧ T ((home x + d) % n) = none := by
  classical
  obtain ⟨e, he, hTe⟩ := hempty
  obtain ⟨d₀, hd₀, rfl⟩ := exists_distance hhome he
  have hex : ∃ d, T ((home x + d) % n) = none := ⟨d₀, hTe⟩
  refine ⟨Nat.find hex, ⟨?_, ?_, ?_⟩, Nat.find_spec hex⟩
  · exact lt_of_le_of_lt (Nat.find_min' hex hTe) hd₀
  · intro a ha
    rw [Nat.find_spec hex] at ha
    cases ha
  · intro d' hd'
    obtain ⟨a, ha⟩ := Option.ne_none_iff_exists'.mp (Nat.find_min hex hd')
    exact ⟨a, ha, hnone a ⟨_, Nat.mod_lt _ (by omega), ha⟩⟩

/-- What is found is found by `probe`. -/
theorem Found.probe_eq
    {stop : ℕ → Bool}
    (hfound : Found n home rel T x d)
    (hhome : home x < n)
    (hstop : ∀ j, stop j = true ↔ ∀ a, T j = some a → rel a x) :
    probe n stop n (home x) = some ((home x + d) % n) := by
  refine ProbeTable.probe_eq hhome hfound.lt ((hstop _).mpr hfound.stop) ?_
  intro d' hd'
  obtain ⟨a, ha, hax⟩ := hfound.go d' hd'
  rw [← Bool.not_eq_true, hstop]
  exact fun h => hax (h a ha)

/-- The search ends in one place only. -/
theorem Found.distance_eq
    {d' : ℕ}
    (hfound : Found n home rel T x d)
    (hfound' : Found n home rel T x d') :
    d = d' := by
  rcases Nat.lt_trichotomy d d' with hlt | heq | hlt
  · obtain ⟨a, ha, hax⟩ := hfound'.go d hlt
    exact absurd (hfound.stop a ha) hax
  · exact heq
  · obtain ⟨a, ha, hax⟩ := hfound.go d' hlt
    exact absurd (hfound'.stop a ha) hax

/-- A related element stands nowhere but where the search ends. -/
theorem Valid.related_at_found
    (hrel : Equivalence rel)
    (hhome : ∀ a b, rel a b → home a = home b)
    (hvalid : Valid n home rel T)
    (hfound : Found n home rel T x d)
    (hj : j < n)
    (hT : T j = some a)
    (hax : rel a x) :
    j = (home x + d) % n := by
  obtain ⟨d', hfound', rfl⟩ := hvalid.found_hit hrel hhome hj hT hax
  rw [hfound.distance_eq hfound']

/-- An element put where its search ends keeps the table valid. -/
theorem Valid.put
    (hrel : Equivalence rel)
    (hhome : ∀ a b, rel a b → home a = home b)
    (hvalid : Valid n home rel T)
    (hfound : Found n home rel T x d) :
    Valid n home rel (Function.update T ((home x + d) % n) (some x)) := by
  have honly := fun j a hj hT => hvalid.related_at_found hrel hhome hfound (j := j) (a := a) hj hT
  have hfull : ∀ j, T j ≠ none → Function.update T ((home x + d) % n) (some x) j ≠ none := by
    intro j hj
    rw [Function.update_apply]
    split
    · exact Option.some_ne_none x
    · exact hj
  constructor
  · intro j a hj hT
    rw [Function.update_apply] at hT
    split at hT
    · rename_i hp
      cases hT
      refine ⟨d, hfound.lt, hp.symm, fun d' hd' => hfull _ ?_⟩
      obtain ⟨b, hb, -⟩ := hfound.go d' hd'
      exact Option.ne_none_iff_exists'.mpr ⟨b, hb⟩
    · obtain ⟨d', hd', hdj, hpath⟩ := hvalid.reached j a hj hT
      exact ⟨d', hd', hdj, fun k hk => hfull _ (hpath k hk)⟩
  · intro i j a b hi hj hTi hTj hab
    rw [Function.update_apply] at hTi hTj
    split at hTi <;> split at hTj
    · omega
    · cases hTi
      exact absurd (honly j b hj hTj (hrel.symm hab)) ‹_›
    · cases hTj
      exact absurd (honly i a hi hTi hab) ‹_›
    · exact hvalid.unique i j a b hi hj hTi hTj hab

/-- What the table has after an element was put. -/
theorem Valid.holds_put
    (hrel : Equivalence rel)
    (hhome : ∀ a b, rel a b → home a = home b)
    (hvalid : Valid n home rel T)
    (hfound : Found n home rel T x d) :
    Holds n (Function.update T ((home x + d) % n) (some x)) a ↔
      a = x ∨ Holds n T a ∧ ¬ rel a x := by
  have hp : (home x + d) % n < n := Nat.mod_lt _ (by have := hfound.lt; omega)
  constructor
  · rintro ⟨j, hj, hT⟩
    rw [Function.update_apply] at hT
    split at hT
    · cases hT
      exact Or.inl rfl
    · rename_i hne
      exact Or.inr ⟨⟨j, hj, hT⟩, fun hax =>
        hne (hvalid.related_at_found hrel hhome hfound hj hT hax)⟩
  · rintro (rfl | ⟨⟨j, hj, hT⟩, hax⟩)
    · exact ⟨_, hp, Function.update_self _ _ _⟩
    · refine ⟨j, hj, ?_⟩
      rw [Function.update_of_ne, hT]
      rintro rfl
      exact hax (hfound.stop a hT)

end Search

section Shift

/-! ### Putting back what stands behind a removed element

On a line bucket `0` is empty and nothing stands in front of its home. -/

variable (n) (home : α → ℕ) (rel : α → α → Prop)

/-- From the home of `a` on the line to bucket `d` there is no empty bucket. -/
def LineReached (L : ℕ → Option α) (a : α) (d : ℕ) : Prop :=
  home a ≤ d ∧ ∀ d', home a ≤ d' → d' < d → L d' ≠ none

/-- A valid table, seen from an empty bucket. -/
structure Line (L : ℕ → Option α) : Prop where
  first : L 0 = none
  reached : ∀ d a, d < n → L d = some a → LineReached home L a d
  unique : ∀ d d' a b, d < n → d' < n → L d = some a → L d' = some b → rel a b → d = d'

/-- The element of bucket `p` is removed from `L₀`, and the elements up to
bucket `k` have been put back: each stands between `p` and its old place. -/
structure Shifting (L₀ L : ℕ → Option α) (p k : ℕ) : Prop where
  same : ∀ d < n, d < p ∨ k ≤ d → L d = L₀ d
  moved : ∀ d a, p ≤ d → d < k → L d = some a →
    ∃ d₀, d ≤ d₀ ∧ p < d₀ ∧ d₀ < k ∧ L₀ d₀ = some a
  kept : ∀ d₀ a, p < d₀ → d₀ < k → L₀ d₀ = some a → ∃ d, p ≤ d ∧ d < k ∧ L d = some a
  reached : ∀ d a, d < k → L d = some a → LineReached home L a d
  unique : ∀ d d' a b, d < n → d' < n → L d = some a → L d' = some b → rel a b → d = d'

variable {n home rel} {L₀ L L' : ℕ → Option α} {p k q : ℕ} {t : α}

theorem Line.shifting
    (hline : Line n home rel L₀)
    (hp : p < n)
    (hL : ∀ d < n, L d = if d = p then none else L₀ d) :
    Shifting n home rel L₀ L p (p + 1) := by
  have hsub : ∀ d a, d < n → L d = some a → d ≠ p ∧ L₀ d = some a := by
    intro d a hd h
    rw [hL d hd] at h
    split at h
    · cases h
    · exact ⟨‹_›, h⟩
  constructor
  · intro d hd hout
    rw [hL d hd, if_neg (by omega)]
  · intro d a hpd hdk h
    exact absurd (hsub d a (by omega) h).1 (by omega)
  · intro d₀ a hpd hdk
    omega
  · intro d a hdk h
    obtain ⟨hne, h₀⟩ := hsub d a (by omega) h
    obtain ⟨hle, hpath⟩ := hline.reached d a (by omega) h₀
    refine ⟨hle, fun d' hd' hlt => ?_⟩
    rw [hL d' (by omega), if_neg (by omega)]
    exact hpath d' hd' hlt
  · intro d d' a b hd hd' h h'
    exact hline.unique d d' a b hd hd' (hsub d a hd h).2 (hsub d' b hd' h').2

/-- One more element is put back. -/
theorem Shifting.step
    (hline : Line n home rel L₀)
    (hshift : Shifting n home rel L₀ L p k)
    (hpk : p < k)
    (hk : k < n)
    (ht : L k = some t)
    (hq : home t ≤ q ∧ q ≤ k)
    (hfree : q = k ∨ L q = none)
    (hpath : ∀ d, home t ≤ d → d < q → L d ≠ none)
    (hL' : ∀ d < n, L' d = if d = q then some t else if d = k then none else L d) :
    Shifting n home rel L₀ L' p (k + 1) := by
  have ht₀ : L₀ k = some t := by
    rw [← hshift.same k hk (Or.inr le_rfl), ht]
  -- `q` is not in front of the removed element, where nothing has changed
  have hpq : p ≤ q := by
    by_contra hlt
    rcases hfree with rfl | hfree
    · omega
    rw [hshift.same q (by omega) (by omega)] at hfree
    exact (hline.reached k t hk ht₀).2 q hq.1 (by omega) hfree
  have hcases : ∀ d a, d < n → L' d = some a → d = q ∧ a = t ∨ d ≠ q ∧ d ≠ k ∧ L d = some a := by
    intro d a hd h
    rw [hL' d hd] at h
    split at h
    · cases h
      exact Or.inl ⟨‹_›, rfl⟩
    split at h
    · cases h
    · exact Or.inr ⟨‹_›, ‹_›, h⟩
  have hfull : ∀ d < k, L d ≠ none → L' d ≠ none := by
    intro d hdk hd
    rw [hL' d (by omega)]
    split
    · exact Option.some_ne_none t
    · rwa [if_neg (by omega)]
  constructor
  · intro d hd hout
    rw [hL' d hd, if_neg (by omega), if_neg (by omega)]
    exact hshift.same d hd (by omega)
  · intro d a hpd hdk h
    rcases hcases d a (by omega) h with ⟨rfl, rfl⟩ | ⟨hdq, hdk', hold⟩
    · exact ⟨k, hq.2, hpk, by omega, ht₀⟩
    · obtain ⟨d₀, hle, hlt, hltk, h₀⟩ := hshift.moved d a hpd (by omega) hold
      exact ⟨d₀, hle, hlt, by omega, h₀⟩
  · intro d₀ a hpd hdk h₀
    rcases Nat.lt_succ_iff_lt_or_eq.mp hdk with hlt | rfl
    · obtain ⟨d, hpd', hdk', hd⟩ := hshift.kept d₀ a hpd hlt h₀
      refine ⟨d, hpd', by omega, ?_⟩
      rw [hL' d (by omega), if_neg, if_neg (by omega), hd]
      rintro rfl
      rcases hfree with rfl | hfree
      · omega
      · rw [hfree] at hd
        cases hd
    · rw [ht₀] at h₀
      cases h₀
      exact ⟨q, hpq, by omega, by rw [hL' q (by omega), if_pos rfl]⟩
  · intro d a hdk h
    rcases hcases d a (by omega) h with ⟨rfl, rfl⟩ | ⟨hdq, hdk', hold⟩
    · exact ⟨hq.1, fun d' hd' hlt => hfull d' (by omega) (hpath d' hd' hlt)⟩
    · obtain ⟨hle, hpath'⟩ := hshift.reached d a (by omega) hold
      exact ⟨hle, fun d' hd' hlt => hfull d' (by omega) (hpath' d' hd' hlt)⟩
  · intro d d' a b hd hd' h h' hab
    rcases hcases d a hd h with ⟨rfl, rfl⟩ | ⟨hdq, hdk, hold⟩ <;>
      rcases hcases d' b hd' h' with ⟨rfl, rfl⟩ | ⟨hdq', hdk', hold'⟩
    · rfl
    · exact absurd (hshift.unique k d' a b hk hd' ht hold' hab).symm hdk'
    · exact absurd (hshift.unique d k a b hd hk hold ht hab) hdk
    · exact hshift.unique d d' a b hd hd' hold hold' hab

/-- Up to an empty bucket, everything is in its place again. -/
theorem Shifting.isLine
    (hline : Line n home rel L₀)
    (hshift : Shifting n home rel L₀ L p k)
    (hp : 0 < p)
    (hn : 0 < n)
    (hend : k < n → L₀ k = none) :
    Line n home rel L := by
  refine ⟨?_, ?_, hshift.unique⟩
  · rw [hshift.same 0 hn (Or.inl hp)]
    exact hline.first
  · intro d a hd h
    rcases Nat.lt_or_ge d k with hlt | hge
    · exact hshift.reached d a hlt h
    rw [hshift.same d hd (Or.inr hge)] at h
    obtain ⟨hle, hpath⟩ := hline.reached d a hd h
    have hk := hend (by omega)
    have hkd : k ≠ d := by
      rintro rfl
      rw [hk] at h
      cases h
    have hka : k < home a := by
      by_contra hnot
      exact hpath k (by omega) (by omega) hk
    refine ⟨hle, fun d' hd' hlt => ?_⟩
    rw [hshift.same d' (by omega) (Or.inr (by omega))]
    exact hpath d' hd' hlt

end Shift

section Around

/-- The table from bucket `e` on. -/
def line (n e : ℕ) (T : ℕ → Option α) : ℕ → Option α :=
  fun d => T ((e + d) % n)

/-- The home, counted from bucket `e` on. -/
def lineHome (n e : ℕ) (home : α → ℕ) : α → ℕ :=
  fun a => (home a + (n - e)) % n

/-- `T'` is the table `T` without the element `r` of bucket `p`. -/
structure Removed (n : ℕ) (home : α → ℕ) (rel : α → α → Prop)
    (T T' : ℕ → Option α) (p : ℕ) (r : α) : Prop where
  valid : Valid n home rel T'
  holds : ∀ a, Holds n T' a ↔ Holds n T a ∧ ¬ rel a r
  -- no element comes to stand in front of `p` that stood behind it
  back : ∀ j a, j < n → T' j = some a → ∃ j₀ < n, T j₀ = some a ∧ (j < p → j₀ < p)

variable {home : α → ℕ} {rel : α → α → Prop} {T T₀ : ℕ → Option α} {e p k : ℕ} {r t : α}

theorem lineHome_add
    (he : e < n)
    (a : α)
    (k : ℕ) :
    (e + (lineHome n e home a + k)) % n = (home a + k) % n := by
  have hcut : (e + (home a + (n - e) + k)) % n = (home a + k) % n := by
    rw [show e + (home a + (n - e) + k) = home a + k + n by omega, Nat.add_mod_right]
  rw [← hcut, lineHome]
  exact Nat.ModEq.add_left e (Nat.ModEq.add_right k (Nat.mod_modEq _ n))

theorem add_mod_of_lt
    {i d : ℕ}
    (hi : i < n)
    (hd : d < n) :
    (i + d) % n = if i + d < n then i + d else i + d - n := by
  split
  · exact Nat.mod_eq_of_lt ‹_›
  · rw [Nat.mod_eq_sub_mod (by omega), Nat.mod_eq_of_lt (by omega)]

theorem Valid.isLine
    (hvalid : Valid n home rel T)
    (he : e < n)
    (hempty : T e = none) :
    Line n (lineHome n e home) rel (line n e T) := by
  have hn : 0 < n := by omega
  have hfirst : line n e T 0 = none := by
    rw [line, Nat.add_zero, Nat.mod_eq_of_lt he, hempty]
  refine ⟨hfirst, ?_, ?_⟩
  · intro d a hd h
    obtain ⟨k, hk, hkd, hpath⟩ := hvalid.reached _ a (Nat.mod_lt _ hn) h
    have hpos : lineHome n e home a < n := Nat.mod_lt _ hn
    rw [← lineHome_add he] at hkd
    -- a path across the empty bucket `e` would end there
    have hlt : lineHome n e home a + k < n := by
      by_contra hge
      have hwrap : (e + (lineHome n e home a + (n - lineHome n e home a))) % n =
          (home a + (n - lineHome n e home a)) % n := lineHome_add he a _
      rw [Nat.add_sub_cancel' hpos.le, Nat.add_mod_right, Nat.mod_eq_of_lt he] at hwrap
      rcases Nat.lt_or_eq_of_le (show n - lineHome n e home a ≤ k by omega) with hlt | heq
      · exact hpath _ hlt (by rw [← hwrap, hempty])
      · rw [← heq, Nat.add_sub_cancel' hpos.le, Nat.add_mod_right, Nat.mod_eq_of_lt he] at hkd
        rw [line, ← hkd, hempty] at h
        cases h
    have hsame := add_mod_inj hlt hd hkd
    refine ⟨by omega, fun d' hge hd' => ?_⟩
    have := hpath (d' - lineHome n e home a) (by omega)
    rwa [← lineHome_add he, Nat.add_sub_cancel' hge] at this
  · intro d d' a b hd hd' h h' hab
    exact add_mod_inj hd hd'
      (hvalid.unique _ _ a b (Nat.mod_lt _ hn) (Nat.mod_lt _ hn) h h' hab)

theorem Line.valid
    (hline : Line n (lineHome n e home) rel (line n e T))
    (he : e < n) :
    Valid n home rel T := by
  constructor
  · intro j a hj h
    obtain ⟨d, hd, rfl⟩ := exists_distance he hj
    obtain ⟨hle, hpath⟩ := hline.reached d a hd h
    refine ⟨d - lineHome n e home a, by omega, ?_, fun k hk => ?_⟩
    · rw [← lineHome_add he, Nat.add_sub_cancel' hle]
    · rw [← lineHome_add he]
      exact hpath _ (by omega) (by omega)
  · intro i j a b hi hj h h' hab
    obtain ⟨d, hd, rfl⟩ := exists_distance he hi
    obtain ⟨d', hd', rfl⟩ := exists_distance he hj
    rw [hline.unique d d' a b hd hd' h h' hab]

theorem line_update
    (v : Option α)
    {d q : ℕ}
    (hd : d < n)
    (hq : q < n) :
    line n e (Function.update T ((e + q) % n) v) d = if d = q then v else line n e T d := by
  rw [line, Function.update_apply]
  refine ite_congr (propext ⟨add_mod_inj hd hq, fun h => by rw [h]⟩) (fun _ => rfl) fun _ => rfl

/-- The element of bucket `k` of the line is taken out and put where its search
ends. -/
theorem Shifting.put
    (hhome : ∀ a, home a < n)
    (hline : Line n (lineHome n e home) rel (line n e T₀))
    (hshift : Shifting n (lineHome n e home) rel (line n e T₀) (line n e T) p k)
    (he : e < n)
    (hpk : p < k)
    (hk : k < n)
    (ht : T ((e + k) % n) = some t) :
    ∃ d, Found n home rel (Function.update T ((e + k) % n) none) t d ∧
      Function.update T ((e + k) % n) none ((home t + d) % n) = none ∧
      Shifting n (lineHome n e home) rel (line n e T₀)
        (line n e (Function.update (Function.update T ((e + k) % n) none)
          ((home t + d) % n) (some t))) p (k + 1) := by
  set T₁ := Function.update T ((e + k) % n) none with hT₁
  have hclear : T₁ ((e + k) % n) = none := Function.update_self _ _ _
  have hline₁ : ∀ d < n, line n e T₁ d = if d = k then none else line n e T d :=
    fun d hd => line_update none hd hk
  have hnone : ∀ a, Holds n T₁ a → ¬ rel a t := by
    rintro a ⟨j, hj, ha⟩ hat
    obtain ⟨d, hd, rfl⟩ := exists_distance he hj
    have hd₁ : line n e T₁ d = some a := ha
    rw [hline₁ d hd] at hd₁
    split at hd₁
    · cases hd₁
    · exact absurd (hshift.unique d k a t hd hk hd₁ ht hat) ‹_›
  obtain ⟨d, hfound, hfree⟩ :=
    found_miss ⟨_, Nat.mod_lt _ (by omega), hclear⟩ (hhome t) hnone
  refine ⟨d, hfound, hfree, ?_⟩
  have ht₀ : line n e T₀ k = some t := by
    rw [← hshift.same k hk (Or.inr le_rfl)]
    exact ht
  have hle := (hline.reached k t hk ht₀).1
  have hdk : lineHome n e home t + d ≤ k := by
    by_contra hgt
    obtain ⟨a, ha, -⟩ := hfound.go (k - lineHome n e home t) (by omega)
    rw [← lineHome_add he, Nat.add_sub_cancel' hle, hclear] at ha
    cases ha
  rw [← lineHome_add he] at hfree ⊢
  refine hshift.step hline hpk hk ht (q := lineHome n e home t + d) ⟨by omega, hdk⟩ ?_ ?_ ?_
  · rcases Nat.lt_or_eq_of_le hdk with hlt | heq
    · have hq := hline₁ _ (show lineHome n e home t + d < n by omega)
      rw [if_neg (by omega)] at hq
      exact Or.inr (hq ▸ hfree)
    · exact Or.inl heq
  · intro d' hge hlt
    obtain ⟨a, ha, -⟩ := hfound.go (d' - lineHome n e home t) (by omega)
    rw [← lineHome_add he, Nat.add_sub_cancel' hge] at ha
    have hd' := hline₁ d' (by omega)
    rw [if_neg (by omega)] at hd'
    rw [← hd', line, ha]
    exact Option.some_ne_none a
  · intro d' hd'
    rw [line_update _ hd' (by omega), hline₁ d' hd']

theorem Shifting.removed
    (hrel : Equivalence rel)
    (hline : Line n (lineHome n e home) rel (line n e T₀))
    (hshift : Shifting n (lineHome n e home) rel (line n e T₀) (line n e T) p k)
    (he : e < n)
    (hp : p < n)
    (hr : T₀ ((e + p) % n) = some r)
    (hpk : p < k)
    (hkn : k ≤ n)
    (hend : k < n → T ((e + k) % n) = none) :
    Removed n home rel T₀ T ((e + p) % n) r := by
  have hp₀ : 0 < p := by
    rcases Nat.eq_zero_or_pos p with rfl | hpos
    · have := hline.first
      rw [line, hr] at this
      cases this
    · exact hpos
  have hend₀ : k < n → line n e T₀ k = none := fun hk => by
    rw [← hshift.same k hk (Or.inr le_rfl)]
    exact hend hk
  have hvalid := (hshift.isLine hline hp₀ (by omega) hend₀).valid he
  -- where the elements come from, on the line
  have hfrom : ∀ d a, d < n → line n e T d = some a →
      ∃ d₀ < n, line n e T₀ d₀ = some a ∧ (d₀ = d ∧ d ≠ p ∨ p ≤ d ∧ d ≤ d₀ ∧ p < d₀) := by
    intro d a hd h
    by_cases hin : p ≤ d ∧ d < k
    · obtain ⟨d₀, hle, hlt, hk₀, h₀⟩ := hshift.moved d a hin.1 hin.2 h
      exact ⟨d₀, by omega, h₀, Or.inr ⟨hin.1, hle, hlt⟩⟩
    · rw [hshift.same d hd (by omega)] at h
      refine ⟨d, hd, h, Or.inl ⟨rfl, by omega⟩⟩
  refine ⟨hvalid, fun a => ⟨?_, ?_⟩, ?_⟩
  · rintro ⟨j, hj, ha⟩
    obtain ⟨d, hd, rfl⟩ := exists_distance he hj
    obtain ⟨d₀, hd₀, ha₀, hwhere⟩ := hfrom d a hd ha
    refine ⟨⟨_, Nat.mod_lt _ (by omega), ha₀⟩, fun har => ?_⟩
    have := hline.unique d₀ p a r hd₀ hp ha₀ hr har
    omega
  · rintro ⟨⟨j, hj, ha⟩, har⟩
    obtain ⟨d, hd, rfl⟩ := exists_distance he hj
    by_cases hin : p < d ∧ d < k
    · obtain ⟨d', -, hdk, hd'⟩ := hshift.kept d a hin.1 hin.2 ha
      exact ⟨_, Nat.mod_lt _ (by omega), hd'⟩
    · have hdp : d ≠ p := by
        rintro rfl
        rw [hr] at ha
        cases ha
        exact har (hrel.refl _)
      have hsame := hshift.same d hd (by omega)
      exact ⟨_, hj, hsame.trans ha⟩
  · intro j a hj ha
    obtain ⟨d, hd, rfl⟩ := exists_distance he hj
    obtain ⟨d₀, hd₀, ha₀, hwhere⟩ := hfrom d a hd ha
    refine ⟨_, Nat.mod_lt _ (by omega), ha₀, ?_⟩
    rw [add_mod_of_lt he hd, add_mod_of_lt he hd₀, add_mod_of_lt he hp]
    split_ifs <;> omega

end Around

end ProbeTable
