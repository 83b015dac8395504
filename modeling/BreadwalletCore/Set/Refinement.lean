import BreadwalletCore.Set.Combine

/-!
# Sets are finite maps

A set is a finite map from the classes of equal items to items.  `SpecStep`
says what each call does to the maps and what it returns.  The order in which a
set lists its items is left open: it may change with every call that changes
the set.

The run of any sequence of calls returns what the maps return, as long as the
calls fit: they name sets that exist, combine distinct sets, and need no table
larger than the largest one.
-/

namespace BreadwalletCore

open BRSet (Ok Merged maxItems largestCapacity largestSize)

variable {α : Type} {F : SetFunctions α}

/-- The classes of equal items. -/
def SetFunctions.setoid (F : SetFunctions α) : Setoid α :=
  ⟨F.Rel, F.equivalence⟩

/-- The class of an item. -/
def SetFunctions.cls (F : SetFunctions α) (a : α) : Quotient F.setoid :=
  Quotient.mk F.setoid a

theorem SetFunctions.cls_eq
    {a b : α} :
    F.cls a = F.cls b ↔ F.Rel a b :=
  Quotient.eq

/-- A finite map from classes of equal items to items, with an order in which
its items are listed. -/
structure AbstractSet (F : SetFunctions α) where
  item : Quotient F.setoid → Option α
  order : List α
  nodup : order.Nodup
  listed : ∀ q a, item q = some a ↔ a ∈ order ∧ F.cls a = q

namespace AbstractSet

variable {m m' o : AbstractSet F} {set set' otherSet : BRSet α} {x : α}

/-- The map of a set in order. -/
noncomputable def ofSet (set : BRSet α) (hok : Ok F set) : AbstractSet F := by
  classical
  exact
    { item := fun q => set.items.find? fun a => decide (F.cls a = q)
      order := set.items
      nodup := BRSet.nodup_items hok.valid
      listed := by
        intro q a
        constructor
        · intro h
          have hq := List.find?_some h
          exact ⟨List.mem_of_find?_eq_some h, of_decide_eq_true hq⟩
        · rintro ⟨ha, rfl⟩
          cases hfind : set.items.find? fun b => decide (F.cls b = F.cls a) with
          | none =>
              have := List.find?_eq_none.mp hfind a ha
              simp at this
          | some b =>
              have hq := List.find?_some hfind
              have hrel := SetFunctions.cls_eq.mp (of_decide_eq_true hq)
              rw [BRSet.eq_of_rel hok.valid (List.mem_of_find?_eq_some hfind) ha hrel] }

/-- A map is known by what it lists. -/
theorem item_eq
    {f : Quotient F.setoid → Option α}
    (hf : ∀ q a, f q = some a ↔ a ∈ m.order ∧ F.cls a = q) :
    m.item = f := by
  funext q
  refine Option.ext fun a => ?_
  rw [m.listed, hf]

/-- What a search in a set finds is what its map has. -/
theorem item_cls
    {t : Option α}
    (hm : m.order = set.items)
    (ht : ∀ c, t = some c ↔ c ∈ set.items ∧ F.Rel c x) :
    t = m.item (F.cls x) := by
  refine Option.ext fun c => ?_
  rw [ht, m.listed, SetFunctions.cls_eq, hm]

end AbstractSet

/-! ### The calls on maps -/

open Classical in
/-- What a call does to the maps, and what it returns. -/
inductive SpecStep :
    List (AbstractSet F) → SetCall α → SetResult α → List (AbstractSet F) → Prop where
  | new {ms m} (capacity : ℕ)
      (hm : m.item = fun _ => none) :
      SpecStep ms (.new capacity) .done (ms ++ [m])
  | add {ms i m m'} (x : α)
      (hi : ms[i]? = some m)
      (hm' : m'.item = Function.update m.item (F.cls x) (some x)) :
      SpecStep ms (.add i x) (.item (m.item (F.cls x))) (ms.set i m')
  | remove {ms i m m'} (x : α)
      (hi : ms[i]? = some m)
      (hm' : m'.item = Function.update m.item (F.cls x) none) :
      SpecStep ms (.remove i x) (.item (m.item (F.cls x))) (ms.set i m')
  | clear {ms i m m'}
      (hi : ms[i]? = some m)
      (hm' : m'.item = fun _ => none) :
      SpecStep ms (.clear i) .done (ms.set i m')
  | union {ms i j m o m'}
      (hij : i ≠ j)
      (hi : ms[i]? = some m)
      (hj : ms[j]? = some o)
      (hm' : m'.item = fun q => (o.item q).or (m.item q)) :
      SpecStep ms (.union i j) .done (ms.set i m')
  | minus {ms i j m o m'}
      (hij : i ≠ j)
      (hi : ms[i]? = some m)
      (hj : ms[j]? = some o)
      (hm' : m'.item = fun q => if (o.item q).isSome then none else m.item q) :
      SpecStep ms (.minus i j) .done (ms.set i m')
  | intersect {ms i j m o m'}
      (hij : i ≠ j)
      (hi : ms[i]? = some m)
      (hj : ms[j]? = some o)
      (hm' : m'.item = fun q => if (o.item q).isSome then m.item q else none) :
      SpecStep ms (.intersect i j) .done (ms.set i m')
  | get {ms i m} (x : α)
      (hi : ms[i]? = some m) :
      SpecStep ms (.get i x) (.item (m.item (F.cls x))) ms
  | contains {ms i m} (x : α)
      (hi : ms[i]? = some m) :
      SpecStep ms (.contains i x) (.truth (m.item (F.cls x)).isSome) ms
  | count {ms i m}
      (hi : ms[i]? = some m) :
      SpecStep ms (.count i) (.number m.order.length) ms
  | all {ms i m} (n : ℕ)
      (hi : ms[i]? = some m) :
      SpecStep ms (.all i n) (.items (m.order.take n)) ms
  | first {ms i m}
      (hi : ms[i]? = some m) :
      SpecStep ms (.iterate i none) (.item m.order.head?) ms
  -- the item behind `previous`; without such an item any may be next
  | next {ms i m} (previous : α) (front behind : List α)
      (hi : ms[i]? = some m)
      (horder : m.order = front ++ behind)
      (hlast : ∀ c, m.item (F.cls previous) = some c → front.getLast? = some c) :
      SpecStep ms (.iterate i (some previous)) (.item behind.head?) ms

/-- What a sequence of calls does to the maps, and what it returns. -/
inductive SpecRun :
    List (AbstractSet F) → List (SetCall α) → List (SetResult α) → List (AbstractSet F) → Prop where
  | nil (ms) :
      SpecRun ms [] [] ms
  | cons {ms ms' ms'' call calls r rs}
      (hstep : SpecStep ms call r ms')
      (hrun : SpecRun ms' calls rs ms'') :
      SpecRun ms (call :: calls) (r :: rs) ms''

/-- The sets a call names exist and are distinct, and it needs no table larger
than the largest one. -/
def Fits (ms : List (AbstractSet F)) : SetCall α → Prop
  | .new capacity => capacity ≤ largestCapacity
  | .add i x => ∃ m, ms[i]? = some m ∧
      (m.item (F.cls x) = none → m.order.length < maxItems largestSize)
  | .union i j => i ≠ j ∧ ∃ m o, ms[i]? = some m ∧ ms[j]? = some o ∧
      m.order.length + o.order.length ≤ maxItems largestSize
  | .minus i j => i ≠ j ∧ ∃ m o, ms[i]? = some m ∧ ms[j]? = some o
  | .intersect i j => i ≠ j ∧ ∃ m o, ms[i]? = some m ∧ ms[j]? = some o
  | .remove i _ => ∃ m, ms[i]? = some m
  | .clear i => ∃ m, ms[i]? = some m
  | .get i _ => ∃ m, ms[i]? = some m
  | .contains i _ => ∃ m, ms[i]? = some m
  | .count i => ∃ m, ms[i]? = some m
  | .all i _ => ∃ m, ms[i]? = some m
  | .iterate i _ => ∃ m, ms[i]? = some m

/-- Every call of a sequence fits. -/
def Fitting (ms : List (AbstractSet F)) : List (SetCall α) → Prop
  | [] => True
  | call :: calls => Fits ms call ∧ ∀ r ms', SpecStep ms call r ms' → Fitting ms' calls

/-! ### The maps after a call -/

namespace AbstractSet

variable {m m' o : AbstractSet F} {set set' otherSet : BRSet α} {x : α}

theorem item_empty
    (hm' : m'.order = []) :
    m'.item = fun _ => none :=
  item_eq fun q a => by simp [hm']

theorem order_eq_nil
    (hm : m.item = fun _ => none) :
    m.order = [] := by
  refine List.eq_nil_iff_forall_not_mem.mpr fun a ha => ?_
  have := (m.listed (F.cls a) a).mpr ⟨ha, rfl⟩
  rw [hm] at this
  cases this

open Classical in
theorem item_added
    (hm : m.order = set.items)
    (hm' : m'.order = set'.items)
    (hadd : ∀ a, a ∈ set'.items ↔ a = x ∨ a ∈ set.items ∧ ¬ F.Rel a x) :
    m'.item = Function.update m.item (F.cls x) (some x) := by
  refine item_eq fun q a => ?_
  rw [hm', hadd, Function.update_apply]
  split
  · rename_i hq
    rw [hq, SetFunctions.cls_eq, Option.some_inj]
    constructor
    · rintro rfl
      exact ⟨Or.inl rfl, F.equivalence.refl _⟩
    · rintro ⟨rfl | ⟨-, hnot⟩, hax⟩
      · rfl
      · exact absurd hax hnot
  · rename_i hq
    rw [m.listed, hm]
    constructor
    · rintro ⟨ha, rfl⟩
      exact ⟨Or.inr ⟨ha, fun hax => hq (SetFunctions.cls_eq.mpr hax)⟩, rfl⟩
    · rintro ⟨rfl | ⟨ha, -⟩, hax⟩
      · exact absurd hax.symm hq
      · exact ⟨ha, hax⟩

open Classical in
theorem item_removed
    (hm : m.order = set.items)
    (hm' : m'.order = set'.items)
    (hremove : ∀ a, a ∈ set'.items ↔ a ∈ set.items ∧ ¬ F.Rel a x) :
    m'.item = Function.update m.item (F.cls x) none := by
  refine item_eq fun q a => ?_
  rw [hm', hremove, Function.update_apply, ← SetFunctions.cls_eq]
  split
  · rename_i hq
    simp only [reduceCtorEq, false_iff]
    rintro ⟨⟨-, hnot⟩, ha⟩
    exact hnot (ha.trans hq)
  · rename_i hq
    rw [m.listed, hm]
    constructor
    · rintro ⟨ha, rfl⟩
      exact ⟨⟨ha, hq⟩, rfl⟩
    · rintro ⟨⟨ha, -⟩, hax⟩
      exact ⟨ha, hax⟩

/-- The other map has an item of a class if the other set has one. -/
theorem isSome_item
    (ho : o.order = otherSet.items)
    (q : Quotient F.setoid) :
    (o.item q).isSome = true ↔ ∃ c ∈ otherSet.items, F.cls c = q := by
  rw [Option.isSome_iff_exists, ← ho]
  exact exists_congr fun c => o.listed q c

theorem item_united
    (hm : m.order = set.items)
    (ho : o.order = otherSet.items)
    (hm' : m'.order = set'.items)
    (hunion : Merged F set.items otherSet.items set') :
    m'.item = fun q => (o.item q).or (m.item q) := by
  refine item_eq fun q a => ?_
  rw [hm', hunion a]
  cases hq : o.item q with
  | some c =>
      obtain ⟨hc, rfl⟩ := (o.listed q c).mp hq
      rw [Option.some_or, Option.some_inj]
      rw [ho] at hc
      constructor
      · rintro rfl
        exact ⟨Or.inl hc, rfl⟩
      · rintro ⟨ha | ⟨-, hnot⟩, hac⟩
        · have := (o.listed _ a).mpr ⟨ho ▸ ha, hac⟩
          rw [hq] at this
          exact Option.some_inj.mp this
        · exact absurd (SetFunctions.cls_eq.mp hac) (hnot c hc)
  | none =>
      have hnone : ∀ c ∈ otherSet.items, F.cls c ≠ q := by
        intro c hc hcq
        have := (isSome_item ho q).mpr ⟨c, hc, hcq⟩
        rw [hq] at this
        cases this
      rw [Option.none_or, m.listed, hm]
      constructor
      · rintro ⟨ha, rfl⟩
        exact ⟨Or.inr ⟨ha, fun b hb hab => hnone b hb (SetFunctions.cls_eq.mpr hab).symm⟩, rfl⟩
      · rintro ⟨ha | ⟨ha, -⟩, hac⟩
        · exact absurd hac (hnone a ha)
        · exact ⟨ha, hac⟩

theorem item_without
    (hm : m.order = set.items)
    (ho : o.order = otherSet.items)
    (hm' : m'.order = set'.items)
    (hminus : ∀ a, a ∈ set'.items ↔ a ∈ set.items ∧ ∀ b ∈ otherSet.items, ¬ F.Rel a b) :
    m'.item = fun q => if (o.item q).isSome then none else m.item q := by
  refine item_eq fun q a => ?_
  have hother := isSome_item ho q
  rw [hm', hminus]
  split
  · obtain ⟨c, hc, rfl⟩ := hother.mp ‹_›
    simp only [reduceCtorEq, false_iff]
    rintro ⟨⟨-, hnot⟩, hac⟩
    exact hnot c hc (SetFunctions.cls_eq.mp hac)
  · rename_i hnone
    rw [m.listed, hm]
    constructor
    · rintro ⟨ha, rfl⟩
      refine ⟨⟨ha, fun b hb hab => hnone (hother.mpr ⟨b, hb, ?_⟩)⟩, rfl⟩
      exact (SetFunctions.cls_eq.mpr hab).symm
    · rintro ⟨⟨ha, -⟩, hac⟩
      exact ⟨ha, hac⟩

theorem item_common
    (hm : m.order = set.items)
    (ho : o.order = otherSet.items)
    (hm' : m'.order = set'.items)
    (hcommon : ∀ a, a ∈ set'.items ↔ a ∈ set.items ∧ ∃ c ∈ otherSet.items, F.Rel c a) :
    m'.item = fun q => if (o.item q).isSome then m.item q else none := by
  refine item_eq fun q a => ?_
  have hother := isSome_item ho q
  rw [hm', hcommon]
  split
  · obtain ⟨c, hc, rfl⟩ := hother.mp ‹_›
    rw [m.listed, hm]
    constructor
    · rintro ⟨ha, hac⟩
      exact ⟨⟨ha, c, hc, SetFunctions.cls_eq.mp hac.symm⟩, hac⟩
    · rintro ⟨⟨ha, -⟩, hac⟩
      exact ⟨ha, hac⟩
  · rename_i hnone
    simp only [reduceCtorEq, false_iff]
    rintro ⟨⟨-, c, hc, hca⟩, rfl⟩
    exact hnone (hother.mpr ⟨c, hc, SetFunctions.cls_eq.mpr hca⟩)

end AbstractSet

/-! ### Simulation -/

/-- The sets are in order, and list their items as the maps do. -/
def Refines (F : SetFunctions α) (sets : List (BRSet α)) (ms : List (AbstractSet F)) : Prop :=
  List.Forall₂ (fun set m => Ok F set ∧ m.order = set.items) sets ms

variable {sets : List (BRSet α)} {ms : List (AbstractSet F)} {i : ℕ}

theorem Refines.setAt
    (h : Refines F sets ms)
    {m : AbstractSet F}
    (hi : ms[i]? = some m) :
    ∃ set, SetCall.setAt sets i = .ok set ∧ Ok F set ∧ m.order = set.items := by
  induction h generalizing i with
  | nil =>
      cases hi
  | cons hhead htail ih =>
      cases i with
      | zero =>
          cases hi
          exact ⟨_, rfl, hhead⟩
      | succ i =>
          exact ih hi

theorem Refines.ok
    (h : Refines F sets ms)
    (set : BRSet α)
    (hset : set ∈ sets) :
    Ok F set := by
  induction h with
  | nil =>
      cases hset
  | cons hhead htail ih =>
      rcases List.mem_cons.mp hset with rfl | hset
      · exact hhead.1
      · exact ih hset

theorem Refines.set
    (h : Refines F sets ms)
    {set : BRSet α}
    {m : AbstractSet F}
    (hset : Ok F set ∧ m.order = set.items)
    (i : ℕ) :
    Refines F (sets.set i set) (ms.set i m) := by
  induction h generalizing i with
  | nil =>
      exact List.Forall₂.nil
  | cons hhead htail ih =>
      cases i with
      | zero =>
          exact List.Forall₂.cons hset htail
      | succ i =>
          exact List.Forall₂.cons hhead (ih i)

section Step

variable {m o : AbstractSet F} {j : ℕ} {call : SetCall α}

/-- A call that changes a set, if the set it returns has a map as it should. -/
theorem change_refines
    {f : BRSet α → Except SetFault (BRSet α × Option α)}
    (h : Refines F sets ms)
    (hi : ms[i]? = some m)
    (hf : ∀ set, Ok F set → m.order = set.items → ∃ r, f set = .ok r ∧ Ok F r.1 ∧
      ∀ m', m'.order = r.1.items → SpecStep ms call (.item r.2) (ms.set i m')) :
    ∃ sets' r ms', SetCall.change sets i f = .ok (sets', [r]) ∧ SpecStep ms call r ms' ∧
      Refines F sets' ms' := by
  obtain ⟨set, hset, hok, horder⟩ := h.setAt hi
  obtain ⟨r, hr, hokr, hspec⟩ := hf set hok horder
  refine ⟨_, _, _, ?_, hspec (AbstractSet.ofSet r.1 hokr) rfl, h.set ⟨hokr, rfl⟩ i⟩
  rw [SetCall.change, hset, Machine.ok_bind, hr]
  rfl

theorem combine_refines
    {f : BRSet α → BRSet α → Except SetFault (BRSet α)}
    (h : Refines F sets ms)
    (hij : i ≠ j)
    (hi : ms[i]? = some m)
    (hj : ms[j]? = some o)
    (hf : ∀ set otherSet, Ok F set → m.order = set.items → Ok F otherSet →
      o.order = otherSet.items → ∃ r, f set otherSet = .ok r ∧ Ok F r ∧
        ∀ m', m'.order = r.items → SpecStep ms call .done (ms.set i m')) :
    ∃ sets' r ms', SetCall.combine sets i j f = .ok (sets', [r]) ∧ SpecStep ms call r ms' ∧
      Refines F sets' ms' := by
  obtain ⟨set, hset, hok, horder⟩ := h.setAt hi
  obtain ⟨otherSet, hother, hoko, hordero⟩ := h.setAt hj
  obtain ⟨r, hr, hokr, hspec⟩ := hf set otherSet hok horder hoko hordero
  refine ⟨_, _, _, ?_, hspec (AbstractSet.ofSet r hokr) rfl, h.set ⟨hokr, rfl⟩ i⟩
  rw [SetCall.combine, if_neg hij, hset, hother]
  simp only [Machine.ok_bind, hr]
  rfl

theorem query_refines
    {f : BRSet α → Except SetFault (SetResult α)}
    (h : Refines F sets ms)
    (hi : ms[i]? = some m)
    (hf : ∀ set, Ok F set → m.order = set.items → ∃ r, f set = .ok r ∧ SpecStep ms call r ms) :
    ∃ sets' r ms', SetCall.query sets i f = .ok (sets', [r]) ∧ SpecStep ms call r ms' ∧
      Refines F sets' ms' := by
  obtain ⟨set, hset, hok, horder⟩ := h.setAt hi
  obtain ⟨r, hr, hspec⟩ := hf set hok horder
  refine ⟨sets, r, ms, ?_, hspec, h⟩
  rw [SetCall.query, hset, Machine.ok_bind, hr]
  rfl

variable [DecidableEq α]

/-- A call that fits does to the sets what it does to the maps. -/
theorem step_refines
    (h : Refines F sets ms)
    (hfits : Fits ms call) :
    ∃ sets' r ms', SetCall.step F sets call = .ok (sets', [r]) ∧ SpecStep ms call r ms' ∧
      Refines F sets' ms' := by
  cases call with
  | new capacity =>
      rcases BRSet.init_spec F capacity with ⟨set, hinit, hok, hempty, -⟩ | ⟨hlarge, -⟩
      · refine ⟨sets ++ [set], .done, ms ++ [AbstractSet.ofSet set hok], ?_, ?_, ?_⟩
        · rw [SetCall.step, hinit]
          rfl
        · exact SpecStep.new capacity (AbstractSet.item_empty hempty)
        · exact List.rel_append h (List.Forall₂.cons ⟨hok, rfl⟩ List.Forall₂.nil)
      · exact absurd hfits (Nat.not_le.mpr hlarge)
  | add i x =>
      obtain ⟨m, hi, hroom⟩ := hfits
      refine change_refines h hi fun set hok horder => ?_
      rcases hok.add x with ⟨r, hr, hadded⟩ | ⟨⟨hfull, hnew⟩, -⟩
      · refine ⟨r, hr, hadded.ok, fun m' hm' => ?_⟩
        rw [AbstractSet.item_cls horder hadded.replaced]
        exact SpecStep.add x hi (AbstractSet.item_added horder hm' hadded.items)
      · have hnone : none = m.item (F.cls x) :=
          AbstractSet.item_cls horder fun c => by simpa using hnew c
        have := hroom hnone.symm
        rw [horder] at this
        omega
  | remove i x =>
      obtain ⟨m, hi⟩ := hfits
      refine change_refines h hi fun set hok horder => ?_
      obtain ⟨r, hr, hdeleted⟩ := hok.remove x
      refine ⟨r, hr, hdeleted.ok, fun m' hm' => ?_⟩
      rw [AbstractSet.item_cls horder hdeleted.removed]
      exact SpecStep.remove x hi (AbstractSet.item_removed horder hm' hdeleted.items)
  | clear i =>
      obtain ⟨m, hi⟩ := hfits
      obtain ⟨set, hset, hok, horder⟩ := h.setAt hi
      obtain ⟨hokc, hempty⟩ := hok.clear
      let m' : AbstractSet F := AbstractSet.ofSet set.clear hokc
      have hm' : m'.item = fun _ => none := AbstractSet.item_empty hempty
      refine ⟨_, _, _, ?_, SpecStep.clear hi hm', h.set ⟨hokc, rfl⟩ i⟩
      rw [SetCall.step, hset]
      rfl
  | union i j =>
      obtain ⟨hij, m, o, hi, hj, hroom⟩ := hfits
      refine combine_refines h hij hi hj fun set otherSet hok horder hoko hordero => ?_
      rcases hok.union hoko with ⟨r, hr, hokr, hmerged⟩ | ⟨hlarge, -⟩
      · exact ⟨r, hr, hokr, fun m' hm' =>
          SpecStep.union hij hi hj (AbstractSet.item_united horder hordero hm' hmerged)⟩
      · rw [horder, hordero] at hroom
        omega
  | minus i j =>
      obtain ⟨hij, m, o, hi, hj⟩ := hfits
      refine combine_refines h hij hi hj fun set otherSet hok horder hoko hordero => ?_
      rcases hok.minus otherSet with ⟨r, hr, hokr, hitems⟩ | ⟨hfalse, -⟩
      · exact ⟨r, hr, hokr, fun m' hm' =>
          SpecStep.minus hij hi hj (AbstractSet.item_without horder hordero hm' hitems)⟩
      · exact hfalse.elim
  | intersect i j =>
      obtain ⟨hij, m, o, hi, hj⟩ := hfits
      refine combine_refines h hij hi hj fun set otherSet hok horder hoko hordero => ?_
      obtain ⟨r, hr, hokr, hitems⟩ := hok.intersect hoko
      exact ⟨r, hr, hokr, fun m' hm' =>
        SpecStep.intersect hij hi hj (AbstractSet.item_common horder hordero hm' hitems)⟩
  | get i x =>
      obtain ⟨m, hi⟩ := hfits
      refine query_refines h hi fun set hok horder => ?_
      obtain ⟨t, ht, hitem⟩ := hok.get x
      refine ⟨.item t, by rw [ht]; rfl, ?_⟩
      rw [AbstractSet.item_cls horder hitem]
      exact SpecStep.get x hi
  | contains i x =>
      obtain ⟨m, hi⟩ := hfits
      refine query_refines h hi fun set hok horder => ?_
      obtain ⟨t, ht, hitem⟩ := hok.get x
      refine ⟨.truth t.isSome, by rw [BRSet.contains, ht]; rfl, ?_⟩
      rw [AbstractSet.item_cls horder hitem]
      exact SpecStep.contains x hi
  | count i =>
      obtain ⟨m, hi⟩ := hfits
      refine query_refines h hi fun set hok horder => ⟨_, rfl, ?_⟩
      rw [hok.count, ← horder]
      exact SpecStep.count hi
  | all i n =>
      obtain ⟨m, hi⟩ := hfits
      refine query_refines h hi fun set hok horder => ⟨_, rfl, ?_⟩
      rw [BRSet.all, ← horder]
      exact SpecStep.all n hi
  | iterate i previous =>
      obtain ⟨m, hi⟩ := hfits
      refine query_refines h hi fun set hok horder => ?_
      cases previous with
      | none =>
          refine ⟨_, rfl, ?_⟩
          rw [← List.head?_filterMap, ← BRSet.items, ← horder]
          exact SpecStep.first hi
      | some x =>
          obtain ⟨t, front, behind, ht, hitems, rfl, hlast⟩ := hok.iterate x
          refine ⟨_, by rw [ht]; rfl, ?_⟩
          refine SpecStep.next x front behind hi (horder.trans hitems) fun c hc => ?_
          rw [m.listed, horder, SetFunctions.cls_eq] at hc
          exact hlast c hc.1 hc.2

theorem run_refines
    {calls : List (SetCall α)}
    (h : Refines F sets ms)
    (hfitting : Fitting ms calls) :
    ∃ sets' results ms', Machine.run (SetCall.step F) sets calls = .ok (sets', results) ∧
      SpecRun ms calls results ms' ∧ Refines F sets' ms' := by
  induction calls generalizing sets ms with
  | nil =>
      exact ⟨sets, [], ms, rfl, SpecRun.nil ms, h⟩
  | cons call calls ih =>
      obtain ⟨sets₁, r, ms₁, hstep, hspec, h₁⟩ := step_refines h hfitting.1
      obtain ⟨sets₂, rs, ms₂, hrun, hspecs, h₂⟩ := ih h₁ (hfitting.2 r ms₁ hspec)
      refine ⟨sets₂, r :: rs, ms₂, ?_, SpecRun.cons hspec hspecs, h₂⟩
      rw [Machine.run, hstep]
      dsimp only
      rw [hrun]
      rfl

/-- **Sets are finite maps.**  A sequence of calls that fit returns, and returns
what the maps return.  The sets are left with no more items than two thirds of
their buckets, and no bucket between the home of an item and its place is
empty. -/
theorem run_refines_maps
    (F : SetFunctions α)
    (calls : List (SetCall α))
    (hfitting : Fitting ([] : List (AbstractSet F)) calls) :
    ∃ sets results ms, Machine.run (SetCall.step F) [] calls = .ok (sets, results) ∧
      SpecRun ([] : List (AbstractSet F)) calls results ms ∧
      List.Forall₂ (fun set (m : AbstractSet F) => m.order = set.items) sets ms ∧
      ∀ set ∈ sets, set.itemCount ≤ maxItems set.size ∧ maxItems set.size < set.size ∧
        ∀ j a, set.bucket j = some a →
          ProbeTable.Reached set.size (F.home set.size) set.bucket a j := by
  have hstart : Refines F [] ([] : List (AbstractSet F)) := List.Forall₂.nil
  obtain ⟨sets, results, ms, hrun, hspec, h⟩ := run_refines hstart hfitting
  refine ⟨sets, results, ms, hrun, hspec, h.imp fun _ _ hset => hset.2, fun set hset => ?_⟩
  have hok := h.ok set hset
  refine ⟨hok.load, BRSet.maxItems_lt _ hok.size_mem, fun j a ha => ?_⟩
  exact hok.valid.reached j a (BRSet.lt_size_of_bucket ha) ha

/-- A set of numbers that are equal if they are equal modulo ten. -/
def lastDigit : SetFunctions ℕ where
  hash := fun a => a % 10
  eq := fun a b => a % 10 = b % 10
  equivalence := by
    constructor <;> simp +contextual
  hash_eq := by
    simp

theorem run_refines_maps_lastDigit :
    ∃ sets results ms,
      Machine.run (SetCall.step lastDigit) [] [.new 1, .add 0 21, .get 0 31] =
        .ok (sets, results) ∧
      SpecRun ([] : List (AbstractSet lastDigit)) [.new 1, .add 0 21, .get 0 31] results ms ∧
      List.Forall₂ (fun set (m : AbstractSet lastDigit) => m.order = set.items) sets ms ∧
      ∀ set ∈ sets, set.itemCount ≤ maxItems set.size ∧ maxItems set.size < set.size ∧
        ∀ j a, set.bucket j = some a →
          ProbeTable.Reached set.size (lastDigit.home set.size) set.bucket a j := by
  refine run_refines_maps lastDigit _ ⟨?_, fun r ms hnew => ?_⟩
  · exact show (1 : ℕ) ≤ largestCapacity by decide
  · cases hnew with
    | new _ hm =>
        refine ⟨⟨_, rfl, fun _ => ?_⟩, fun r ms hadd => ?_⟩
        · rw [AbstractSet.order_eq_nil hm]
          decide
        · cases hadd with
          | add x hi hm' =>
              exact ⟨⟨_, rfl⟩, fun _ _ _ => trivial⟩

end Step

end BreadwalletCore
