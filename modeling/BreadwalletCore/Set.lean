import BreadwalletCore.Data.Machine
import BreadwalletCore.Data.ProbeTable

/-!
# Sets

A `BRSet` is a hash table with linear probing.  A table that gets fuller than
two thirds is rebuilt with the next larger number of buckets, and an item is
removed by adding the items behind it again, up to the next empty bucket.

Items are compared as pointers first, then with the equality function of the
set.  `Except` returns the ways a call can fail to return: a probe that never
stops, and a table larger than the largest of `tableSizes`.
-/

namespace BreadwalletCore

/-- `tableSizes`: starting with 1, multiply by 3/2, round up, then find the next
largest prime. -/
def tableSizes : List ℕ :=
  [1, 3, 7, 13, 23, 37, 59, 97, 149, 227, 347, 523, 787, 1187, 1783, 2677, 4019, 6037, 9059,
    13591, 20389, 30593, 45887, 68863, 103307, 154981, 232487, 348739, 523129, 784697, 1177067,
    1765609, 2648419, 3972643, 5958971, 8938469, 13407707, 20111563, 30167359, 45251077,
    67876637, 101814991, 152722489, 229083739, 343625629, 515438447, 773157683, 1159736527,
    1739604799, 2609407319, 3914111041]

/-- The hash and the equality function of a set.  Any two items that are equal
have identical hash values. -/
structure SetFunctions (α : Type) where
  hash : α → ℕ
  eq : α → α → Bool
  equivalence : Equivalence fun a b => eq a b = true
  hash_eq : ∀ a b, eq a b = true → hash a = hash b

/-- `BRSet`: the buckets, and the number of items in them. -/
structure BRSet (α : Type) where
  table : List (Option α)
  itemCount : ℕ
deriving DecidableEq, Repr

/-- Why a call does not return. -/
inductive SetFault where
  | outOfFuel
  | tooLarge
  | noSet
  | sameSet
deriving DecidableEq, Repr

namespace BRSet

variable {α : Type}

/-- The number of buckets. -/
def size (set : BRSet α) : ℕ :=
  set.table.length

/-- The content of a bucket. -/
def bucket (set : BRSet α) (i : ℕ) : Option α :=
  (set.table[i]?).join

/-- The items of a set, from the first bucket on. -/
def items (set : BRSet α) : List α :=
  set.table.filterMap id

/-- The greatest number of items a table of this size holds. -/
def maxItems (size : ℕ) : ℕ :=
  (size + 2) / 3 * 2

/-- `_BRSetInit` -/
def init (capacity : ℕ) : Except SetFault (BRSet α) :=
  let i := (tableSizes.takeWhile fun size => decide (size < capacity)).length
  -- the next larger table size keeps the load factor below 2/3 at capacity
  match tableSizes[i + 1]? with
  | some size => .ok ⟨List.replicate size none, 0⟩
  | none => .error .tooLarge

section Calls

variable [DecidableEq α] (F : SetFunctions α)

/-- A bucket stops the search for an item. -/
def stops (item : α) : Option α → Bool
  | none => true
  | some t => t = item || F.eq t item

/-- Probe for an item, or for the empty bucket behind the last one in its way. -/
def search (set : BRSet α) (item : α) : Except SetFault ℕ :=
  match ProbeTable.probe set.size (fun i => stops F item (set.bucket i)) set.size
    (F.hash item % set.size) with
  | some i => .ok i
  | none => .error .outOfFuel

/-- `BRSetUnion`, for a way to add an item. -/
def unionWith (add : BRSet α → α → Except SetFault (BRSet α × Option α))
    (set otherSet : BRSet α) : Except SetFault (BRSet α) :=
  otherSet.items.foldlM (fun set t => Prod.fst <$> add set t) set

/-- `_BRSetGrow`: rebuild the table to hold up to `capacity` items. -/
def growWith (add : BRSet α → α → Except SetFault (BRSet α × Option α))
    (set : BRSet α) (capacity : ℕ) : Except SetFault (BRSet α) := do
  let newSet ← init capacity
  unionWith add newSet set

/-- `BRSetAdd`, with at most `depth` tables being built one inside the other. -/
def addAt : ℕ → BRSet α → α → Except SetFault (BRSet α × Option α)
  | 0, _, _ => .error .outOfFuel
  | depth + 1, set, item => do
      let i ← search F set item
      let t := set.bucket i
      let added : BRSet α :=
        { table := set.table.set i (some item)
          itemCount := if t.isNone then set.itemCount + 1 else set.itemCount }
      if maxItems added.size < added.itemCount then
        let grown ← growWith (addAt depth) added set.size
        return (grown, t)
      return (added, t)

/-- `BRSetAdd` -/
def add (set : BRSet α) (item : α) : Except SetFault (BRSet α × Option α) :=
  addAt F tableSizes.length set item

/-- The hashtable cleanup of `BRSetRemove`: add again what stands in bucket `i`
and behind it. -/
def cleanup (size : ℕ) : ℕ → BRSet α → ℕ → Except SetFault (BRSet α)
  | 0, _, _ => .error .outOfFuel
  | fuel + 1, set, i =>
      match set.bucket i with
      | none => .ok set
      | some t => do
          let cleared : BRSet α :=
            { table := set.table.set i none, itemCount := set.itemCount - 1 }
          let added ← add F cleared t
          cleanup size fuel added.1 ((i + 1) % size)

/-- `BRSetRemove` -/
def remove (set : BRSet α) (item : α) : Except SetFault (BRSet α × Option α) := do
  let i ← search F set item
  match set.bucket i with
  | none => return (set, none)
  | some r =>
      let cleared : BRSet α :=
        { table := set.table.set i none, itemCount := set.itemCount - 1 }
      let cleaned ← cleanup F set.size set.size cleared ((i + 1) % set.size)
      return (cleaned, some r)

/-- `BRSetClear` -/
def clear (set : BRSet α) : BRSet α :=
  { table := List.replicate set.size none, itemCount := 0 }

/-- `BRSetGet` -/
def get (set : BRSet α) (item : α) : Except SetFault (Option α) := do
  let i ← search F set item
  return set.bucket i

/-- `BRSetContains` -/
def contains (set : BRSet α) (item : α) : Except SetFault Bool := do
  let t ← get F set item
  return t.isSome

/-- `BRSetIterate` -/
def iterate (set : BRSet α) : Option α → Except SetFault (Option α)
  | none => .ok (set.table.findSome? id)
  | some previous => do
      let i ← search F set previous
      return (set.table.drop (i + 1)).findSome? id

/-- `BRSetAll` -/
def all (set : BRSet α) (count : ℕ) : List α :=
  set.items.take count

/-- `BRSetUnion` -/
def union (set otherSet : BRSet α) : Except SetFault (BRSet α) :=
  unionWith (add F) set otherSet

/-- `BRSetMinus` -/
def minus (set otherSet : BRSet α) : Except SetFault (BRSet α) :=
  otherSet.items.foldlM (fun set t => Prod.fst <$> remove F set t) set

/-- `BRSetIntersect` from bucket `i` on.  A bucket whose item was removed is
looked at again, as another item may have come to stand there. -/
def intersectFrom (otherSet : BRSet α) (size : ℕ) :
    ℕ → BRSet α → ℕ → Except SetFault (BRSet α)
  | 0, _, _ => .error .outOfFuel
  | fuel + 1, set, i =>
      if i < size then
        match set.bucket i with
        | none => intersectFrom otherSet size fuel set (i + 1)
        | some t => do
            let kept ← contains F otherSet t
            if kept then
              intersectFrom otherSet size fuel set (i + 1)
            else
              let removed ← remove F set t
              intersectFrom otherSet size fuel removed.1 i
      else
        .ok set

/-- `BRSetIntersect` -/
def intersect (set otherSet : BRSet α) : Except SetFault (BRSet α) :=
  intersectFrom F otherSet set.size (set.size + set.itemCount + 1) set 0

end Calls

end BRSet

/-! ### Calls on several sets -/

/-- A call of the interface; sets are named by the order they were created in. -/
inductive SetCall (α : Type) where
  | new (capacity : ℕ)
  | add (set : ℕ) (item : α)
  | remove (set : ℕ) (item : α)
  | clear (set : ℕ)
  | union (set otherSet : ℕ)
  | minus (set otherSet : ℕ)
  | intersect (set otherSet : ℕ)
  | get (set : ℕ) (item : α)
  | contains (set : ℕ) (item : α)
  | count (set : ℕ)
  | all (set : ℕ) (count : ℕ)
  | iterate (set : ℕ) (previous : Option α)
deriving DecidableEq, Repr

/-- What a call returns. -/
inductive SetResult (α : Type) where
  | done
  | item (t : Option α)
  | truth (b : Bool)
  | number (k : ℕ)
  | items (ts : List α)
deriving DecidableEq, Repr

namespace SetCall

variable {α : Type} [DecidableEq α] (F : SetFunctions α)

/-- The set with a number. -/
def setAt (sets : List (BRSet α)) (i : ℕ) : Except SetFault (BRSet α) :=
  match sets[i]? with
  | some set => .ok set
  | none => .error .noSet

/-- A call that changes a set and returns an item. -/
def change (sets : List (BRSet α)) (i : ℕ)
    (f : BRSet α → Except SetFault (BRSet α × Option α)) :
    Except SetFault (List (BRSet α) × List (SetResult α)) := do
  let set ← setAt sets i
  let r ← f set
  return (sets.set i r.1, [.item r.2])

/-- A call that changes a set with the items of a distinct set. -/
def combine (sets : List (BRSet α)) (i j : ℕ)
    (f : BRSet α → BRSet α → Except SetFault (BRSet α)) :
    Except SetFault (List (BRSet α) × List (SetResult α)) := do
  if i = j then throw .sameSet
  let set ← setAt sets i
  let otherSet ← setAt sets j
  let r ← f set otherSet
  return (sets.set i r, [.done])

/-- A call that only asks. -/
def query (sets : List (BRSet α)) (i : ℕ)
    (f : BRSet α → Except SetFault (SetResult α)) :
    Except SetFault (List (BRSet α) × List (SetResult α)) := do
  let set ← setAt sets i
  let r ← f set
  return (sets, [r])

/-- One call on the sets created so far. -/
def step (sets : List (BRSet α)) :
    SetCall α → Except SetFault (List (BRSet α) × List (SetResult α))
  | .new capacity => do
      let set ← BRSet.init capacity
      return (sets ++ [set], [.done])
  | .add i item => change sets i fun set => set.add F item
  | .remove i item => change sets i fun set => set.remove F item
  | .clear i => do
      let set ← setAt sets i
      return (sets.set i set.clear, [.done])
  | .union i j => combine sets i j fun set otherSet => set.union F otherSet
  | .minus i j => combine sets i j fun set otherSet => set.minus F otherSet
  | .intersect i j => combine sets i j fun set otherSet => set.intersect F otherSet
  | .get i item => query sets i fun set => .item <$> set.get F item
  | .contains i item => query sets i fun set => .truth <$> set.contains F item
  | .count i => query sets i fun set => .ok (.number set.itemCount)
  | .all i n => query sets i fun set => .ok (.items (set.all n))
  | .iterate i previous => query sets i fun set => .item <$> set.iterate F previous

end SetCall

end BreadwalletCore
