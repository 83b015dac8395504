import BreadwalletCore.Set

/-!
# The table of a set

A set is in order if its size is one of `tableSizes` behind the first, its
count is right and at most the maximum load, and its table is valid: no bucket
between the home of an item and its place is empty.  Every call keeps a set in
order and changes its items as the name of the call says.
-/

namespace BreadwalletCore

/-! ### Calls that return, or need a larger table than there is -/

section Returns

variable {β γ δ : Type} {big : Prop} {r : Except SetFault β} {P Q : β → Prop}

/-- The call returns a value with `P`, or the largest table is too small. -/
def Returns (big : Prop) (r : Except SetFault β) (P : β → Prop) : Prop :=
  (∃ b, r = .ok b ∧ P b) ∨ big ∧ r = .error .tooLarge

theorem Returns.mono
    (h : Returns big r P)
    (hPQ : ∀ b, P b → Q b) :
    Returns big r Q := by
  rcases h with ⟨b, hr, hb⟩ | h
  · exact Or.inl ⟨b, hr, hPQ b hb⟩
  · exact Or.inr h

theorem Returns.bind
    {f : β → Except SetFault γ}
    {R : γ → Prop}
    (h : Returns big r P)
    (hf : ∀ b, P b → Returns big (f b) R) :
    Returns big (r >>= f) R := by
  rcases h with ⟨b, rfl, hb⟩ | ⟨hbig, rfl⟩
  · exact hf b hb
  · exact Or.inr ⟨hbig, rfl⟩

theorem Returns.map
    {f : β → γ}
    {R : γ → Prop}
    (h : Returns big r P)
    (hf : ∀ b, P b → R (f b)) :
    Returns big (f <$> r) R := by
  rcases h with ⟨b, rfl, hb⟩ | ⟨hbig, rfl⟩
  · exact Or.inl ⟨f b, rfl, hf b hb⟩
  · exact Or.inr ⟨hbig, rfl⟩

theorem Returns.weaken
    {big' : Prop}
    (h : Returns big r P)
    (hbig : big → big') :
    Returns big' r P := by
  rcases h with h | ⟨hb, hr⟩
  · exact Or.inl h
  · exact Or.inr ⟨hbig hb, hr⟩

/-- The invariant of a loop over a list speaks of the part that is done. -/
theorem Returns.foldlM
    (I : List δ → β → Prop)
    {f : β → δ → Except SetFault β}
    {xs : List δ}
    {b : β}
    (hstep : ∀ done x b, x ∈ xs → I done b → Returns big (f b x) (I (done ++ [x])))
    (hI : I [] b) :
    Returns big (xs.foldlM f b) (I xs) := by
  have hrun : ∀ rest done b, (∀ x ∈ rest, x ∈ xs) → I done b →
      Returns big (rest.foldlM f b) (I (done ++ rest)) := by
    intro rest
    induction rest with
    | nil =>
        intro done b _ hb
        exact Or.inl ⟨b, rfl, by rwa [List.append_nil]⟩
    | cons x rest ih =>
        intro done b hrest hb
        rw [List.foldlM_cons, List.append_cons]
        refine (hstep done x b (hrest x List.mem_cons_self) hb).bind fun b' hb' => ?_
        exact ih _ b' (fun y hy => hrest y (List.mem_cons_of_mem x hy)) hb'
  exact hrun xs [] b (fun _ hx => hx) hI

end Returns

/-- The home of an item in a table. -/
def SetFunctions.home {α : Type} (F : SetFunctions α) (size : ℕ) (a : α) : ℕ :=
  F.hash a % size

/-- Items that are equal for the set. -/
def SetFunctions.Rel {α : Type} (F : SetFunctions α) (a b : α) : Prop :=
  F.eq a b = true

namespace BRSet

variable {α : Type} {F : SetFunctions α} {set : BRSet α} {a x : α} {i j n : ℕ} {v : Option α}

/-- The set is in order. -/
structure Ok (F : SetFunctions α) (set : BRSet α) : Prop where
  size_mem : set.size ∈ tableSizes.tail
  count : set.itemCount = set.items.length
  load : set.itemCount ≤ maxItems set.size
  valid : ProbeTable.Valid set.size (F.home set.size) F.Rel set.bucket

/-! ### Buckets and items -/

theorem bucket_eq_some :
    set.bucket i = some a ↔ set.table[i]? = some (some a) := by
  rw [bucket, Option.join_eq_some_iff]

theorem lt_size_of_bucket
    (h : set.bucket i = some a) :
    i < set.size := by
  rw [bucket_eq_some] at h
  exact (List.getElem?_eq_some_iff.mp h).1

/-- The items are what the buckets hold. -/
theorem mem_items :
    a ∈ set.items ↔ ProbeTable.Holds set.size set.bucket a := by
  simp only [items, List.mem_filterMap, id_eq, exists_eq_right]
  rw [List.mem_iff_getElem?]
  constructor
  · rintro ⟨i, hi⟩
    have h := bucket_eq_some.mpr hi
    exact ⟨i, lt_size_of_bucket h, h⟩
  · rintro ⟨i, -, hi⟩
    exact ⟨i, bucket_eq_some.mp hi⟩

theorem bucket_set
    (c : ℕ)
    (hi : i < set.size) :
    (⟨set.table.set i v, c⟩ : BRSet α).bucket = Function.update set.bucket i v := by
  funext j
  rw [Function.update_apply, bucket, List.getElem?_set]
  split
  · rename_i hij
    rw [if_pos hij.symm, if_pos (hij ▸ hi), Option.join_some]
  · rw [if_neg (Ne.symm ‹_›), bucket]

@[simp] theorem size_set
    (c : ℕ) :
    (⟨set.table.set i v, c⟩ : BRSet α).size = set.size :=
  List.length_set

theorem items_length
    (set : BRSet α) :
    set.items.length = set.table.countP Option.isSome := by
  rw [items, List.length_filterMap_eq_countP]
  rfl

/-- The number of items, before and after one bucket is set. -/
theorem items_length_set
    (c : ℕ)
    (hi : i < set.size) :
    (⟨set.table.set i v, c⟩ : BRSet α).items.length + (if (set.bucket i).isSome then 1 else 0) =
      set.items.length + (if v.isSome then 1 else 0) := by
  have hi' : i < set.table.length := hi
  have hb : set.bucket i = set.table[i] := by
    rw [bucket, List.getElem?_eq_getElem hi', Option.join_some]
  rw [items_length, items_length, List.countP_set hi', hb]
  have hpos : set.table[i].isSome = true → 0 < set.table.countP Option.isSome := fun h =>
    List.countP_pos_iff.mpr ⟨_, List.getElem_mem hi', h⟩
  cases hs : set.table[i].isSome with
  | false =>
      simp
  | true =>
      have := hpos hs
      simp only [if_true]
      omega

/-! ### The sizes of a table -/

/-- The largest of `tableSizes`. -/
def largestSize : ℕ :=
  3914111041

/-- The largest capacity that has a next larger table size. -/
def largestCapacity : ℕ :=
  2609407319

theorem le_largestCapacity :
    ∀ n ∈ tableSizes.tail, n ≠ largestSize → n ≤ largestCapacity := by
  decide

/-- No table is filled up. -/
theorem maxItems_lt :
    ∀ n ∈ tableSizes.tail, maxItems n < n := by
  decide

/-- The table that `_BRSetGrow` builds has room for one item more. -/
theorem maxItems_grow :
    ∀ n ∈ tableSizes.tail,
      ∀ m ∈ tableSizes[(tableSizes.takeWhile fun size => decide (size < n)).length + 1]?,
        maxItems n + 1 ≤ maxItems m := by
  decide +kernel

/-- A table that is not full has an empty bucket. -/
theorem exists_empty
    (h : set.items.length < set.size) :
    ∃ e < set.size, set.bucket e = none := by
  by_contra hfull
  push Not at hfull
  have hall : ∀ t ∈ set.table, t.isSome = true := by
    intro t ht
    obtain ⟨i, hi, rfl⟩ := List.getElem_of_mem ht
    have := hfull i hi
    rwa [bucket, List.getElem?_eq_getElem hi, Option.join_some, Option.ne_none_iff_isSome] at this
  rw [items_length, List.countP_eq_length.mpr hall] at h
  exact lt_irrefl _ h

theorem Ok.length_lt
    (hok : Ok F set) :
    set.items.length < set.size := by
  have := maxItems_lt _ hok.size_mem
  have := hok.load
  have := hok.count
  omega

theorem Ok.size_pos
    (hok : Ok F set) :
    0 < set.size :=
  lt_of_le_of_lt (Nat.zero_le _) hok.length_lt

/-- A set has no two items that are equal for it. -/
theorem eq_of_rel
    {b : α}
    (hvalid : ProbeTable.Valid set.size (F.home set.size) F.Rel set.bucket)
    (ha : a ∈ set.items)
    (hb : b ∈ set.items)
    (hab : F.Rel a b) :
    a = b := by
  obtain ⟨i, hi, hai⟩ := mem_items.mp ha
  obtain ⟨j, hj, hbj⟩ := mem_items.mp hb
  obtain rfl := hvalid.unique i j a b hi hj hai hbj hab
  rw [hai] at hbj
  exact Option.some_inj.mp hbj

theorem nodup_items
    (hvalid : ProbeTable.Valid set.size (F.home set.size) F.Rel set.bucket) :
    set.items.Nodup := by
  rw [items, List.Nodup, List.pairwise_filterMap, List.pairwise_iff_getElem]
  rintro i j hi hj hij a ha b hb rfl
  rw [id_eq] at ha hb
  have ha' : set.bucket i = some a := by
    rw [bucket_eq_some, List.getElem?_eq_getElem hi, ha]
  have hb' : set.bucket j = some a := by
    rw [bucket_eq_some, List.getElem?_eq_getElem hj, hb]
  have := hvalid.unique i j a a hi hj ha' hb' (F.equivalence.refl a)
  omega

/-! ### Probing -/

section Probing

/-- The search for `x` ends at bucket `j`. -/
def EndsAt (F : SetFunctions α) (set : BRSet α) (x : α) (j : ℕ) : Prop :=
  ∃ d, ProbeTable.Found set.size (F.home set.size) F.Rel set.bucket x d ∧
    j = (F.home set.size x + d) % set.size

theorem home_eq
    (a b : α)
    (h : F.Rel a b) :
    F.home n a = F.home n b := by
  rw [SetFunctions.home, SetFunctions.home, F.hash_eq a b h]

theorem EndsAt.lt
    (hend : EndsAt F set x j) :
    j < set.size := by
  obtain ⟨d, hfound, rfl⟩ := hend
  have := hfound.lt
  exact Nat.mod_lt _ (by omega)

theorem EndsAt.search_eq
    [DecidableEq α]
    (hend : EndsAt F set x j) :
    search F set x = .ok j := by
  obtain ⟨d, hfound, rfl⟩ := hend
  have hpos : 0 < set.size := by
    have := hfound.lt
    omega
  have hstop : ∀ i, stops F x (set.bucket i) = true ↔ ∀ a, set.bucket i = some a → F.Rel a x := by
    intro i
    cases hb : set.bucket i with
    | none =>
        simp [stops]
    | some a =>
        simp only [stops, Bool.or_eq_true, decide_eq_true_eq, Option.some.injEq, forall_eq']
        constructor
        · rintro (rfl | h)
          · exact F.equivalence.refl a
          · exact h
        · exact Or.inr
  have hprobe := hfound.probe_eq (Nat.mod_lt _ hpos) hstop
  rw [SetFunctions.home] at hprobe
  rw [search, hprobe]
  rfl

/-- Every search ends. -/
theorem Ok.exists_endsAt
    (hok : Ok F set)
    (x : α) :
    ∃ j, EndsAt F set x j := by
  by_cases hmem : ∃ a ∈ set.items, F.Rel a x
  · obtain ⟨a, ha, hax⟩ := hmem
    obtain ⟨j, hj, haj⟩ := mem_items.mp ha
    obtain ⟨d, hfound, hd⟩ := hok.valid.found_hit F.equivalence home_eq hj haj hax
    exact ⟨j, d, hfound, hd.symm⟩
  · push Not at hmem
    have hhome : F.home set.size x < set.size := Nat.mod_lt _ hok.size_pos
    obtain ⟨d, hfound, -⟩ := ProbeTable.found_miss (exists_empty hok.length_lt) hhome
      fun a ha => hmem a (mem_items.mpr ha)
    exact ⟨_, d, hfound, rfl⟩

/-- The bucket where the search ends holds the item that is equal. -/
theorem EndsAt.bucket_eq_some
    (hend : EndsAt F set x j)
    (hvalid : ProbeTable.Valid set.size (F.home set.size) F.Rel set.bucket)
    (c : α) :
    set.bucket j = some c ↔ c ∈ set.items ∧ F.Rel c x := by
  constructor
  · intro hc
    refine ⟨mem_items.mpr ⟨j, hend.lt, hc⟩, ?_⟩
    obtain ⟨d, hfound, rfl⟩ := hend
    exact hfound.stop c hc
  · rintro ⟨hc, hcx⟩
    obtain ⟨i, hi, hci⟩ := mem_items.mp hc
    obtain ⟨d, hfound, rfl⟩ := hend
    rw [← hvalid.related_at_found F.equivalence home_eq hfound hi hci hcx, hci]

end Probing

/-! ### Adding -/

section Adding

/-- The set with `x` put in bucket `j`. -/
def put (set : BRSet α) (j : ℕ) (x : α) : BRSet α :=
  { table := set.table.set j (some x)
    itemCount := if (set.bucket j).isNone then set.itemCount + 1 else set.itemCount }

@[simp] theorem size_put
    (set : BRSet α)
    (j : ℕ)
    (x : α) :
    (set.put j x).size = set.size :=
  size_set _

theorem EndsAt.bucket_put
    (hend : EndsAt F set x j) :
    (set.put j x).bucket = Function.update set.bucket j (some x) :=
  bucket_set _ hend.lt

theorem EndsAt.put_valid
    (hend : EndsAt F set x j)
    (hvalid : ProbeTable.Valid set.size (F.home set.size) F.Rel set.bucket) :
    ProbeTable.Valid (set.put j x).size (F.home (set.put j x).size) F.Rel (set.put j x).bucket := by
  rw [size_put, hend.bucket_put]
  obtain ⟨d, hfound, rfl⟩ := hend
  exact hvalid.put F.equivalence home_eq hfound

theorem EndsAt.mem_items_put
    (hend : EndsAt F set x j)
    (hvalid : ProbeTable.Valid set.size (F.home set.size) F.Rel set.bucket) :
    a ∈ (set.put j x).items ↔ a = x ∨ a ∈ set.items ∧ ¬ F.Rel a x := by
  rw [mem_items, mem_items, size_put, hend.bucket_put]
  obtain ⟨d, hfound, rfl⟩ := hend
  exact hvalid.holds_put F.equivalence home_eq hfound

theorem EndsAt.put_count
    (hend : EndsAt F set x j)
    (hcount : set.itemCount = set.items.length) :
    (set.put j x).itemCount = (set.put j x).items.length := by
  have hlen := items_length_set (v := some x) (set.put j x).itemCount hend.lt
  rw [put] at hlen ⊢
  cases hb : set.bucket j with
  | none =>
      simp only [hb, Option.isNone_none, Option.isSome_none, Option.isSome_some, if_true,
        Bool.false_eq_true, if_false] at hlen ⊢
      omega
  | some t =>
      simp only [hb, Option.isNone_some, Option.isSome_some, if_true, Bool.false_eq_true,
        if_false] at hlen ⊢
      omega

/-- What `BRSetAdd` returns. -/
structure Added (F : SetFunctions α) (set : BRSet α) (x : α) (r : BRSet α × Option α) :
    Prop where
  ok : Ok F r.1
  items : ∀ a, a ∈ r.1.items ↔ a = x ∨ a ∈ set.items ∧ ¬ F.Rel a x
  replaced : ∀ c, r.2 = some c ↔ c ∈ set.items ∧ F.Rel c x

/-- An item that fits is put where the search for it ends. -/
theorem addAt_eq_put
    [DecidableEq α]
    {depth : ℕ}
    (hend : EndsAt F set x j)
    (hfit : (set.put j x).itemCount ≤ maxItems set.size) :
    addAt F (depth + 1) set x = .ok (set.put j x, set.bucket j) := by
  rw [addAt, hend.search_eq, Machine.ok_bind]
  rw [← size_put set j x] at hfit
  exact if_neg (not_lt.mpr hfit)

theorem Ok.added_put
    (hok : Ok F set)
    (hend : EndsAt F set x j)
    (hfit : (set.put j x).itemCount ≤ maxItems set.size) :
    Added F set x (set.put j x, set.bucket j) where
  ok := ⟨by simpa using hok.size_mem, hend.put_count hok.count, by simpa using hfit,
    hend.put_valid hok.valid⟩
  items := fun _ => hend.mem_items_put hok.valid
  replaced := hend.bucket_eq_some hok.valid

theorem empty_ok
    (F : SetFunctions α)
    (hsize : n ∈ tableSizes.tail) :
    Ok F ⟨List.replicate n none, 0⟩ ∧ (⟨List.replicate n none, 0⟩ : BRSet α).items = [] := by
  have hitems : (⟨List.replicate n none, 0⟩ : BRSet α).items = [] := by
    simp [items]
  have hlen : (⟨List.replicate n none, 0⟩ : BRSet α).size = n :=
    List.length_replicate
  have hbucket : ∀ i a, (⟨List.replicate n none, 0⟩ : BRSet α).bucket i ≠ some a := by
    intro i a h
    have := mem_items.mpr ⟨i, lt_size_of_bucket h, h⟩
    rw [hitems] at this
    cases this
  refine ⟨⟨by rwa [hlen], by rw [hitems]; rfl, Nat.zero_le _, ?_, ?_⟩, hitems⟩
  · exact fun i a _ h => absurd h (hbucket i a)
  · exact fun i _ a _ _ _ h => absurd h (hbucket i a)

theorem Ok.clear
    (hok : Ok F set) :
    Ok F set.clear ∧ set.clear.items = [] :=
  empty_ok F hok.size_mem

/-- A new table is empty. -/
theorem init_spec
    (F : SetFunctions α)
    (capacity : ℕ) :
    Returns (largestCapacity < capacity) (init capacity) fun set : BRSet α =>
      Ok F set ∧ set.items = [] ∧ set.size ∈
        tableSizes[(tableSizes.takeWhile fun size => decide (size < capacity)).length + 1]? := by
  rw [init]
  cases hsize : tableSizes[(tableSizes.takeWhile fun size => decide (size < capacity)).length + 1]?
    with
  | none =>
      refine Or.inr ⟨?_, rfl⟩
      have hlen : 49 < (tableSizes.takeWhile fun size => decide (size < capacity)).length := by
        rw [List.getElem?_eq_none_iff] at hsize
        exact Nat.lt_of_succ_le (Nat.le_of_succ_le_succ hsize)
      have hlast := List.all_eq_true.mp List.all_takeWhile _ (List.getElem_mem hlen)
      rw [(List.takeWhile_prefix _).getElem hlen] at hlast
      exact of_decide_eq_true hlast
  | some size =>
      have hmem : size ∈ tableSizes.tail :=
        List.mem_of_getElem? (by rw [List.getElem?_tail, hsize])
      obtain ⟨hok, hitems⟩ := empty_ok F hmem
      refine Or.inl ⟨_, rfl, hok, hitems, ?_⟩
      rw [BRSet.size, List.length_replicate]
      rfl

/-- The items of a list were added to a set that had the items `old`. -/
def Merged (F : SetFunctions α) (old added : List α) (set : BRSet α) : Prop :=
  ∀ a, a ∈ set.items ↔ a ∈ added ∨ a ∈ old ∧ ∀ b ∈ added, ¬ F.Rel a b

/-- One more item is added.  It replaces none of those added before. -/
theorem Merged.concat
    {set' : BRSet α}
    {old added : List α}
    (hmerged : Merged F old added set)
    (heq : ∀ a ∈ added, F.Rel a x → a = x)
    (hadd : ∀ a, a ∈ set'.items ↔ a = x ∨ a ∈ set.items ∧ ¬ F.Rel a x) :
    Merged F old (added ++ [x]) set' := by
  intro a
  rw [hadd, hmerged, List.mem_append, List.mem_singleton]
  simp only [List.mem_append, List.mem_singleton, or_imp, forall_and, forall_eq]
  constructor
  · rintro (rfl | ⟨ha | ⟨ha, hold⟩, hax⟩)
    · exact Or.inl (Or.inr rfl)
    · exact Or.inl (Or.inl ha)
    · exact Or.inr ⟨ha, hold, hax⟩
  · rintro ((ha | rfl) | ⟨ha, hold, hax⟩)
    · by_cases hax : F.Rel a x
      · exact Or.inl (heq a ha hax)
      · exact Or.inr ⟨Or.inl ha, hax⟩
    · exact Or.inl rfl
    · exact Or.inr ⟨Or.inr ⟨ha, hold⟩, hax⟩

/-- A rebuilt table has the items of the old one. -/
theorem growWith_spec
    [DecidableEq α]
    {depth : ℕ}
    (hsize : n ∈ tableSizes.tail)
    (heq : ∀ a ∈ set.items, ∀ b ∈ set.items, F.Rel a b → a = b)
    (hcount : set.items.length ≤ maxItems n + 1) :
    Returns (n = largestSize) (growWith (addAt F (depth + 1)) set n) fun grown =>
      Ok F grown ∧ ∀ a, a ∈ grown.items ↔ a ∈ set.items := by
  have hlargest : largestCapacity < n → n = largestSize := fun hlt => by
    by_contra hne
    have := le_largestCapacity n hsize hne
    omega
  refine ((init_spec F n).weaken hlargest).bind fun newSet ⟨hok, hempty, hmem⟩ => ?_
  have hroom := maxItems_grow n hsize _ hmem
  rw [unionWith]
  refine (Returns.foldlM (fun done s => Ok F s ∧ s.size = newSet.size ∧ done ⊆ set.items ∧
    Merged F [] done s) ?_ ?_).mono fun s hs => ⟨hs.1, fun a => ?_⟩
  · rintro done x s hx ⟨hoks, hsizes, hsub, hmerged⟩
    obtain ⟨j, hend⟩ := hoks.exists_endsAt x
    have hsub' : done ++ [x] ⊆ set.items :=
      List.append_subset.mpr ⟨hsub, List.cons_subset.mpr ⟨hx, List.nil_subset _⟩⟩
    have hput : Merged F [] (done ++ [x]) (s.put j x) :=
      hmerged.concat (fun a ha => heq a (hsub ha) x hx) fun a => hend.mem_items_put hoks.valid
    have hfit : (s.put j x).itemCount ≤ maxItems s.size := by
      have hin : (s.put j x).items ⊆ set.items := by
        intro a ha
        rw [hput] at ha
        rcases ha with ha | ⟨ha, -⟩
        · exact hsub' ha
        · cases ha
      have hlen := ((nodup_items (hend.put_valid hoks.valid)).subperm hin).length_le
      rw [hend.put_count hoks.count, hsizes]
      omega
    refine Or.inl ⟨s.put j x, ?_, (hoks.added_put hend hfit).ok, ?_, hsub', hput⟩
    · rw [addAt_eq_put hend hfit]
      rfl
    · rw [size_put, hsizes]
  · refine ⟨hok, rfl, List.nil_subset _, fun a => ?_⟩
    rw [hempty]
    simp
  · rw [hs.2.2.2]
    simp

/-- `BRSetAdd` replaces the item that is equal, if there is one. -/
theorem Ok.add
    [DecidableEq α]
    (hok : Ok F set)
    (x : α) :
    Returns (maxItems largestSize ≤ set.items.length ∧ ∀ c ∈ set.items, ¬ F.Rel c x)
      (add F set x) (Added F set x) := by
  obtain ⟨j, hend⟩ := hok.exists_endsAt x
  by_cases hfit : (set.put j x).itemCount ≤ maxItems set.size
  · exact Or.inl ⟨_, addAt_eq_put hend hfit, hok.added_put hend hfit⟩
  have hput := hend.put_valid hok.valid
  have hcount := hend.put_count hok.count
  have hgrow : Returns (set.size = largestSize)
      (growWith (addAt F 50) (set.put j x) set.size) fun grown =>
      Ok F grown ∧ ∀ a, a ∈ grown.items ↔ a ∈ (set.put j x).items := by
    refine growWith_spec hok.size_mem ?_ ?_
    · exact fun a ha b hb => eq_of_rel hput ha hb
    · rw [← hcount, put]
      have := hok.load
      dsimp only
      split <;> omega
  have hload : maxItems (set.put j x).size < (set.put j x).itemCount := by
    rw [size_put]
    omega
  have hadd : BRSet.add F set x = (do
      let grown ← growWith (addAt F 50) (set.put j x) set.size
      return (grown, set.bucket j)) := by
    rw [BRSet.add, show tableSizes.length = 50 + 1 from rfl, addAt, hend.search_eq,
      Machine.ok_bind]
    exact if_pos hload
  -- the load is exceeded by a new item only
  have hnew : set.bucket j = none ∧ maxItems set.size ≤ set.itemCount := by
    have := hok.load
    rw [put] at hfit
    cases hb : set.bucket j with
    | none =>
        rw [hb] at hfit
        simp only [Option.isNone_none, if_true] at hfit
        exact ⟨rfl, by omega⟩
    | some t =>
        rw [hb] at hfit
        exact absurd this hfit
  have hbig : set.size = largestSize →
      maxItems largestSize ≤ set.items.length ∧ ∀ c ∈ set.items, ¬ F.Rel c x := by
    intro hlast
    refine ⟨?_, fun c hc hcx => ?_⟩
    · rw [← hlast, ← hok.count]
      exact hnew.2
    · have := (hend.bucket_eq_some hok.valid c).mpr ⟨hc, hcx⟩
      rw [hnew.1] at this
      cases this
  rw [hadd]
  refine (hgrow.weaken hbig).bind fun grown ⟨hgrown, hitems⟩ => Or.inl ⟨_, rfl, hgrown, fun a => ?_, ?_⟩
  · rw [hitems]
    exact hend.mem_items_put hok.valid
  · exact hend.bucket_eq_some hok.valid

end Adding

/-! ### Removing -/

section Removing

variable {e p k fuel : ℕ} {t : α} {set₀ : BRSet α}

/-- The set with bucket `i` emptied. -/
def clearBucket (set : BRSet α) (i : ℕ) : BRSet α :=
  { table := set.table.set i none, itemCount := set.itemCount - 1 }

theorem clearBucket_count
    (hi : set.bucket i = some t)
    (hcount : set.itemCount = set.items.length) :
    (set.clearBucket i).itemCount = (set.clearBucket i).items.length ∧
      (set.clearBucket i).itemCount + 1 = set.itemCount := by
  have hlen := items_length_set (v := none) (set.itemCount - 1) (lt_size_of_bucket hi)
  rw [hi] at hlen
  rw [clearBucket]
  simp only [Option.isSome_some, Option.isSome_none, if_true, Bool.false_eq_true, if_false] at hlen
  dsimp only
  omega

/-- The items behind the removed one are being added again, on the line from
the empty bucket `e` on: it stood in bucket `p`, and bucket `k` is next. -/
structure Cleaning (F : SetFunctions α) (set₀ : BRSet α) (e p k : ℕ) (set : BRSet α) :
    Prop where
  size : set.size = set₀.size
  count : set.itemCount = set.items.length
  less : set.itemCount + 1 = set₀.itemCount
  shift : ProbeTable.Shifting set₀.size (ProbeTable.lineHome set₀.size e (F.home set₀.size)) F.Rel
    (ProbeTable.line set₀.size e set₀.bucket) (ProbeTable.line set₀.size e set.bucket) p k

/-- The set without the item of a bucket. -/
structure Cleaned (F : SetFunctions α) (set₀ : BRSet α) (i : ℕ) (r : α) (set : BRSet α) :
    Prop where
  size : set.size = set₀.size
  count : set.itemCount = set.items.length
  less : set.itemCount + 1 = set₀.itemCount
  removed : ProbeTable.Removed set₀.size (F.home set₀.size) F.Rel set₀.bucket set.bucket i r

theorem Cleaning.start
    (hok : Ok F set₀)
    (he : e < set₀.size)
    (hempty : set₀.bucket e = none)
    (hp : p < set₀.size)
    (hr : set₀.bucket ((e + p) % set₀.size) = some t) :
    Cleaning F set₀ e p (p + 1) (set₀.clearBucket ((e + p) % set₀.size)) := by
  obtain ⟨hcount, hless⟩ := clearBucket_count hr hok.count
  refine ⟨size_set _, hcount, hless, ?_⟩
  refine (hok.valid.isLine he hempty).shifting hp fun d hd => ?_
  rw [clearBucket, bucket_set _ (lt_size_of_bucket hr), ProbeTable.line_update _ hd hp]

/-- One more item is added again. -/
theorem Cleaning.step
    [DecidableEq α]
    (hok : Ok F set₀)
    (hclean : Cleaning F set₀ e p k set)
    (he : e < set₀.size)
    (hempty : set₀.bucket e = none)
    (hpk : p < k)
    (hk : k < set₀.size)
    (ht : set.bucket ((e + k) % set₀.size) = some t) :
    ∃ r, BRSet.add F (set.clearBucket ((e + k) % set₀.size)) t = .ok r ∧
      Cleaning F set₀ e p (k + 1) r.1 := by
  have hi : (e + k) % set₀.size < set.size := lt_size_of_bucket ht
  have hhome : ∀ a, F.home set₀.size a < set₀.size := fun a => Nat.mod_lt _ hok.size_pos
  obtain ⟨d, hfound, hfree, hshift⟩ :=
    hclean.shift.put hhome (hok.valid.isLine he hempty) he hpk hk ht
  obtain ⟨hcount, hless⟩ := clearBucket_count ht hclean.count
  generalize hcleared : set.clearBucket ((e + k) % set₀.size) = cleared at hcount hless
  have hsize : cleared.size = set₀.size := by
    rw [← hcleared, ← hclean.size]
    exact size_set _
  have hbucket : cleared.bucket = Function.update set.bucket ((e + k) % set₀.size) none := by
    rw [← hcleared]
    exact bucket_set _ hi
  rw [← hbucket, ← hsize] at hfound hfree hshift
  have hend : EndsAt F cleared t ((F.home cleared.size t + d) % cleared.size) := ⟨d, hfound, rfl⟩
  have hitems : (cleared.put ((F.home cleared.size t + d) % cleared.size) t).itemCount =
      cleared.itemCount + 1 := by
    rw [put, hfree]
    rfl
  refine ⟨_, addAt_eq_put hend ?_, ?_, hend.put_count hcount, ?_, ?_⟩
  · rw [hitems, hsize, hless]
    have := hclean.less
    have := hok.load
    omega
  · rw [size_put, hsize]
  · rw [hitems, hless, hclean.less]
  · rw [← hend.bucket_put, hsize] at hshift
    dsimp only
    rw [hsize]
    exact hshift

theorem Cleaning.finish
    (hok : Ok F set₀)
    (hclean : Cleaning F set₀ e p k set)
    (he : e < set₀.size)
    (hempty : set₀.bucket e = none)
    (hp : p < set₀.size)
    (hr : set₀.bucket ((e + p) % set₀.size) = some t)
    (hpk : p < k)
    (hk : k ≤ set₀.size)
    (hend : set.bucket ((e + k) % set₀.size) = none) :
    Cleaned F set₀ ((e + p) % set₀.size) t set :=
  ⟨hclean.size, hclean.count, hclean.less,
    hclean.shift.removed F.equivalence (hok.valid.isLine he hempty) he hp hr hpk hk fun _ => hend⟩

theorem cleanup_spec
    [DecidableEq α]
    (hok : Ok F set₀)
    (he : e < set₀.size)
    (hempty : set₀.bucket e = none)
    (hp : p < set₀.size)
    (hr : set₀.bucket ((e + p) % set₀.size) = some t)
    (hpk : p < k)
    (hk : k ≤ set₀.size)
    (hfuel : set₀.size - k < fuel)
    (hclean : Cleaning F set₀ e p k set) :
    ∃ cleaned, cleanup F set₀.size fuel set ((e + k) % set₀.size) = .ok cleaned ∧
      Cleaned F set₀ ((e + p) % set₀.size) t cleaned := by
  induction fuel generalizing k set with
  | zero =>
      omega
  | succ fuel ih =>
      cases hb : set.bucket ((e + k) % set₀.size) with
      | none =>
          refine ⟨set, ?_, hclean.finish hok he hempty hp hr hpk hk hb⟩
          rw [cleanup, hb]
      | some t' =>
          -- the bucket at the end of the line is the empty one in front of it
          have hkn : k < set₀.size := by
            refine lt_of_le_of_ne hk ?_
            rintro rfl
            have hfirst := hclean.shift.same 0 (by omega) (Or.inl ?_)
            · rw [(hok.valid.isLine he hempty).first, ProbeTable.line, Nat.add_zero,
                ← Nat.add_mod_right, hb] at hfirst
              cases hfirst
            · rcases Nat.eq_zero_or_pos p with rfl | hpos
              · rw [Nat.add_zero, Nat.mod_eq_of_lt he, hempty] at hr
                cases hr
              · exact hpos
          obtain ⟨r, hadd, hnext⟩ := hclean.step hok he hempty hpk hkn hb
          obtain ⟨cleaned, hrun, hdone⟩ := ih (by omega) hkn (by omega) hnext
          refine ⟨cleaned, ?_, hdone⟩
          rw [cleanup, hb]
          dsimp only
          rw [← clearBucket, hadd, Machine.ok_bind, Nat.mod_add_mod, Nat.add_assoc]
          exact hrun

/-- The item of a bucket is removed. -/
theorem Ok.remove_bucket
    [DecidableEq α]
    (hok : Ok F set)
    (hend : EndsAt F set x i)
    (hi : set.bucket i = some t) :
    ∃ cleaned, remove F set x = .ok (cleaned, some t) ∧ Cleaned F set i t cleaned := by
  obtain ⟨e, he, hempty⟩ := exists_empty hok.length_lt
  obtain ⟨p, hp, rfl⟩ := ProbeTable.exists_distance he (lt_size_of_bucket hi)
  obtain ⟨cleaned, hrun, hdone⟩ := cleanup_spec hok he hempty hp hi (Nat.lt_succ_self p) hp
    (show set.size - (p + 1) < set.size by omega) (Cleaning.start hok he hempty hp hi)
  refine ⟨cleaned, ?_, hdone⟩
  rw [remove, hend.search_eq, Machine.ok_bind, hi]
  dsimp only
  rw [← clearBucket, Nat.mod_add_mod, Nat.add_assoc, hrun]
  rfl

theorem Cleaned.ok
    (hok : Ok F set₀)
    (hclean : Cleaned F set₀ i t set) :
    Ok F set := by
  refine ⟨?_, hclean.count, ?_, ?_⟩
  · rw [hclean.size]
    exact hok.size_mem
  · rw [hclean.size]
    have := hok.load
    have := hclean.less
    omega
  · rw [hclean.size]
    exact hclean.removed.valid

theorem Cleaned.mem_items
    (hclean : Cleaned F set₀ i t set) :
    a ∈ set.items ↔ a ∈ set₀.items ∧ ¬ F.Rel a t := by
  rw [BRSet.mem_items, BRSet.mem_items, hclean.size]
  exact hclean.removed.holds a

/-- What `BRSetRemove` returns. -/
structure Deleted (F : SetFunctions α) (set : BRSet α) (x : α) (r : BRSet α × Option α) :
    Prop where
  ok : Ok F r.1
  items : ∀ a, a ∈ r.1.items ↔ a ∈ set.items ∧ ¬ F.Rel a x
  removed : ∀ c, r.2 = some c ↔ c ∈ set.items ∧ F.Rel c x

/-- `BRSetRemove` removes the item that is equal, if there is one. -/
theorem Ok.remove
    [DecidableEq α]
    (hok : Ok F set)
    (x : α) :
    ∃ r, BRSet.remove F set x = .ok r ∧ Deleted F set x r := by
  obtain ⟨i, hend⟩ := hok.exists_endsAt x
  have hfound := hend.bucket_eq_some hok.valid
  cases hi : set.bucket i with
  | none =>
      rw [hi] at hfound
      refine ⟨(set, none), ?_, hok, fun a => ?_, hfound⟩
      · rw [BRSet.remove, hend.search_eq, Machine.ok_bind, hi]
        rfl
      · have := hfound a
        simp only [reduceCtorEq, false_iff, not_and] at this
        exact ⟨fun ha => ⟨ha, this ha⟩, And.left⟩
  | some t =>
      obtain ⟨cleaned, hrun, hclean⟩ := hok.remove_bucket hend hi
      have htx := ((hfound t).mp hi).2
      refine ⟨_, hrun, hclean.ok hok, fun a => ?_, fun c => ?_⟩
      · rw [hclean.mem_items]
        have hrel : F.Rel a t ↔ F.Rel a x :=
          ⟨fun h => F.equivalence.trans h htx,
            fun h => F.equivalence.trans h (F.equivalence.symm htx)⟩
        rw [hrel]
      · rw [← hi]
        exact hfound c

end Removing

end BRSet

end BreadwalletCore
