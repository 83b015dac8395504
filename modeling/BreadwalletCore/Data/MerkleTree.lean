import Mathlib.Data.Nat.Log
import Mathlib.Logic.Function.Iterate
import Mathlib.Tactic

/-!
# Merkle trees over rows with a repeated last element

A row of hashes is folded pairwise; a row of odd length repeats its last
element.  `merkleRoot` folds row after row until one hash is left.  `subtree`
is the same value computed top down: the node of height `k` over at most
`2 ^ k` leaves combines the node over the first `2 ^ (k - 1)` of them with the
node over the rest, or with itself when there is no rest.

A `PartialTree` is what a depth first traversal of such a tree leaves behind
when some nodes are not expanded.  Its flags and hashes are written in the
order of the traversal; `walk` reads them back without being told where a
branch is missing.
-/

namespace MerkleTree

universe u

variable {α : Type u}

section Rows

variable (combine : α → α → α)

/-- The row above a row. -/
def levelUp : List α → List α
  | [] => []
  | [a] => [combine a a]
  | a :: b :: l => combine a b :: levelUp l

theorem length_levelUp :
    ∀ l : List α, (levelUp combine l).length = (l.length + 1) / 2
  | [] => by
      simp [levelUp]
  | [_] => by
      simp [levelUp]
  | _ :: _ :: l => by
      have ih := length_levelUp l
      simp only [levelUp, List.length_cons]
      omega

/-- Rows are folded until a single hash is left; an empty row has the root
`none`. -/
def merkleRoot : List α → Option α
  | [] => none
  | [a] => some a
  | a :: b :: l => merkleRoot (levelUp combine (a :: b :: l))
termination_by l => l.length
decreasing_by
  have h := length_levelUp combine (a :: b :: l)
  simp only [List.length_cons] at h ⊢
  omega

/-- A node from its children.  A missing right child is replaced by the left
one. -/
def join : Option α → Option α → Option α
  | some a, some b => some (combine a b)
  | some a, none => some (combine a a)
  | none, _ => none

/-- The node of height `k` over at most `2 ^ k` leaves. -/
def subtree : ℕ → List α → Option α
  | 0, l => l.head?
  | k + 1, l => join combine (subtree k (l.take (2 ^ k))) (subtree k (l.drop (2 ^ k)))

@[simp] theorem subtree_nil
    (k : ℕ) :
    subtree combine k [] = none := by
  induction k with
  | zero =>
      rfl
  | succ k ih =>
      simp [subtree, ih, join]

theorem subtree_isSome
    {k : ℕ} {l : List α}
    (hl : l ≠ []) :
    ∃ a, subtree combine k l = some a := by
  induction k generalizing l with
  | zero =>
      exact ⟨l.head hl, List.head?_eq_some_head hl⟩
  | succ k ih =>
      have hpow : 0 < 2 ^ k := Nat.two_pow_pos k
      have htake : l.take (2 ^ k) ≠ [] := by
        simp only [ne_eq, List.take_eq_nil_iff, hl, or_false]
        omega
      obtain ⟨a, ha⟩ := ih htake
      rw [subtree, ha]
      cases subtree combine k (l.drop (2 ^ k)) with
      | none =>
          exact ⟨combine a a, rfl⟩
      | some b =>
          exact ⟨combine a b, rfl⟩

theorem subtree_succ_of_le
    {k : ℕ} {l : List α} {a : α}
    (hlen : l.length ≤ 2 ^ k)
    (ha : subtree combine k l = some a) :
    subtree combine (k + 1) l = some (combine a a) := by
  rw [subtree, List.take_of_length_le hlen, List.drop_of_length_le hlen, subtree_nil, ha, join]

/-- A row splits where the left part pairs up. -/
theorem levelUp_append :
    ∀ {l₁ : List α} (l₂ : List α), l₁.length % 2 = 0 →
      levelUp combine (l₁ ++ l₂) = levelUp combine l₁ ++ levelUp combine l₂
  | [], _, _ => by
      rfl
  | [_], _, h => by
      simp at h
  | a :: b :: l₁, l₂, h => by
      have hl : l₁.length % 2 = 0 := by
        simp only [List.length_cons] at h
        omega
      simp only [List.cons_append, levelUp, levelUp_append l₂ hl]

theorem iterate_levelUp_append
    (k m : ℕ) {l₁ : List α} (l₂ : List α)
    (hlen : l₁.length = 2 ^ k * m) :
    (levelUp combine)^[k] (l₁ ++ l₂) =
      (levelUp combine)^[k] l₁ ++ (levelUp combine)^[k] l₂ := by
  induction k generalizing l₁ l₂ with
  | zero =>
      rfl
  | succ k ih =>
      have hdouble : l₁.length = 2 * (2 ^ k * m) := by
        rw [hlen, pow_succ]
        ring
      have hhalf : (levelUp combine l₁).length = 2 ^ k * m := by
        rw [length_levelUp]
        omega
      rw [Function.iterate_succ_apply, levelUp_append combine l₂ (by omega), ih _ hhalf]
      rfl

/-- After `k` folds at most `2 ^ k` leaves have become their node. -/
theorem iterate_levelUp_eq_subtree
    {k : ℕ} {l : List α}
    (hlen : l.length ≤ 2 ^ k) :
    (levelUp combine)^[k] l = (subtree combine k l).toList := by
  induction k generalizing l with
  | zero =>
      match l, hlen with
      | [], _ =>
          rfl
      | [a], _ =>
          rfl
  | succ k ih =>
      have hpow : 2 ^ (k + 1) = 2 ^ k + 2 ^ k := by
        rw [pow_succ]
        ring
      have hsplit : (levelUp combine)^[k] l =
          (levelUp combine)^[k] (l.take (2 ^ k)) ++ (levelUp combine)^[k] (l.drop (2 ^ k)) := by
        by_cases hshort : l.length ≤ 2 ^ k
        · rw [List.take_of_length_le hshort, List.drop_of_length_le hshort, ih (l := []) (by simp)]
          simp
        · have hfull : (l.take (2 ^ k)).length = 2 ^ k * 1 := by
            rw [List.length_take]
            omega
          have h := iterate_levelUp_append combine k 1 (l.drop (2 ^ k)) hfull
          rwa [List.take_append_drop] at h
      rw [Function.iterate_succ_apply', hsplit, ih (by simp), ih (by simp; omega), subtree]
      by_cases hnil : l = []
      · subst hnil
        simp [join, levelUp]
      · obtain ⟨a, ha⟩ : ∃ a, subtree combine k (l.take (2 ^ k)) = some a :=
          subtree_isSome combine (by simpa using hnil)
        rw [ha]
        cases subtree combine k (l.drop (2 ^ k)) with
        | none =>
            simp [join, levelUp]
        | some b =>
            simp [join, levelUp]

/-- Folding once lowers the height by one. -/
theorem clog_length_levelUp
    {l : List α}
    (hlen : 2 ≤ l.length) :
    Nat.clog 2 l.length = Nat.clog 2 (levelUp combine l).length + 1 := by
  rw [length_levelUp, Nat.clog_of_two_le (by omega) hlen]
  rfl

theorem merkleRoot_eq_iterate
    (l : List α) :
    merkleRoot combine l = ((levelUp combine)^[Nat.clog 2 l.length] l).head? := by
  induction l using merkleRoot.induct combine with
  | case1 =>
      simp [merkleRoot]
  | case2 a =>
      simp [merkleRoot]
  | case3 a b l ih =>
      have hheight := clog_length_levelUp combine (l := a :: b :: l) (by simp)
      rw [merkleRoot, ih, hheight, Function.iterate_succ_apply]

/-- The root is the node of the least height that covers all leaves. -/
theorem merkleRoot_eq_subtree
    (l : List α) :
    merkleRoot combine l = subtree combine (Nat.clog 2 l.length) l := by
  rw [merkleRoot_eq_iterate, iterate_levelUp_eq_subtree combine (Nat.le_pow_clog (by omega) _)]
  cases subtree combine (Nat.clog 2 l.length) l <;> rfl

end Rows

section Injective

variable {combine : α → α → α}

theorem join_eq_some_iff
    {x y : Option α} {c : α} :
    join combine x y = some c ↔ ∃ a, x = some a ∧ combine a (y.getD a) = c := by
  cases x with
  | none =>
      simp [join]
  | some a =>
      cases y <;> simp [join]

/-- Nodes of one height with one value start with the same leaf. -/
theorem head_eq_of_subtree_eq
    (hinj : Function.Injective2 combine)
    {k : ℕ} {l₁ l₂ : List α} {a : α}
    (h₁ : subtree combine k l₁ = some a)
    (h₂ : subtree combine k l₂ = some a) :
    l₁.head? = l₂.head? := by
  induction k generalizing l₁ l₂ a with
  | zero =>
      rw [subtree] at h₁ h₂
      rw [h₁, h₂]
  | succ k ih =>
      obtain ⟨b₁, hb₁, hc₁⟩ := join_eq_some_iff.mp h₁
      obtain ⟨b₂, hb₂, hc₂⟩ := join_eq_some_iff.mp h₂
      have hb : b₁ = b₂ := (hinj (hc₁.trans hc₂.symm)).1
      have hheads := ih hb₁ (hb ▸ hb₂)
      have hpow : 2 ^ k ≠ 0 := (Nat.two_pow_pos k).ne'
      rwa [List.head?_take, List.head?_take, if_neg hpow, if_neg hpow] at hheads

/-- Two non-empty parts of a list without repetition have different nodes. -/
theorem subtree_ne_of_nodup_append
    (hinj : Function.Injective2 combine)
    {k : ℕ} {l₁ l₂ : List α} {a b : α}
    (hnodup : (l₁ ++ l₂).Nodup)
    (h₁ : subtree combine k l₁ = some a)
    (h₂ : subtree combine k l₂ = some b) :
    a ≠ b := by
  rintro rfl
  have hheads := head_eq_of_subtree_eq hinj h₁ h₂
  cases l₁ with
  | nil =>
      simp at h₁
  | cons x l₁ =>
      have hmem : x ∈ l₂ := List.mem_of_mem_head? (by simpa using hheads.symm)
      exact List.disjoint_of_nodup_append hnodup List.mem_cons_self hmem

/-- A node is a leaf or a combination, so it is never a value that is neither. -/
theorem subtree_ne
    {z : α}
    (hz : ∀ a b, combine a b ≠ z)
    {k : ℕ} {l : List α} {a : α}
    (hl : z ∉ l)
    (ha : subtree combine k l = some a) :
    a ≠ z := by
  cases k with
  | zero =>
      rintro rfl
      exact hl (List.mem_of_mem_head? ha)
  | succ k =>
      obtain ⟨b, -, hb⟩ := join_eq_some_iff.mp ha
      exact hb ▸ hz _ _

end Injective

/-- What a traversal leaves of a tree: nothing, a hash that is not expanded
with its flag, or two branches. -/
inductive PartialTree (α : Type u)
  | missing
  | leaf (flag : Bool) (hash : α)
  | node (left right : PartialTree α)
deriving DecidableEq, Repr

namespace PartialTree

/-- The flags in depth first order. -/
def bits : PartialTree α → List Bool
  | missing => []
  | leaf flag _ => [flag]
  | node left right => true :: (left.bits ++ right.bits)

/-- The hashes in depth first order. -/
def hashes : PartialTree α → List α
  | missing => []
  | leaf _ hash => [hash]
  | node left right => left.hashes ++ right.hashes

/-- The flagged hashes in depth first order. -/
def matched : PartialTree α → List α
  | missing => []
  | leaf flag hash => if flag then [hash] else []
  | node left right => left.matched ++ right.matched

/-- Branches stop above the leaves of height zero, and only those leaves are
flagged. -/
def Fits : ℕ → PartialTree α → Prop
  | _, missing => True
  | k, leaf flag _ => k = 0 ∨ flag = false
  | 0, node _ _ => False
  | k + 1, node left right => left.Fits k ∧ right.Fits k

theorem fits_leaf
    {k : ℕ} {flag : Bool} {hash : α} :
    (leaf flag hash).Fits k ↔ k = 0 ∨ flag = false := by
  cases k <;> rfl

/-- No branch is missing. -/
def Full : PartialTree α → Prop
  | missing => False
  | leaf _ _ => True
  | node left right => left.Full ∧ right.Full

/-- A branch is missing only where no hash follows. -/
def Trailing : PartialTree α → Prop
  | missing => True
  | leaf _ _ => True
  | node left right =>
      (left.Full ∧ right.Trailing) ∨ (left ≠ missing ∧ left.Trailing ∧ right = missing)

/-- Read a tree of height `k` back from flags and hashes.  A branch is missing
when either has run out. -/
def walk : ℕ → List Bool → List α → PartialTree α × List Bool × List α
  | 0, flag :: bits, hash :: hashes => (leaf flag hash, bits, hashes)
  | k + 1, flag :: bits, hash :: hashes =>
      if flag then
        let left := walk k bits (hash :: hashes)
        let right := walk k left.2.1 left.2.2
        (node left.1 right.1, right.2)
      else (leaf flag hash, bits, hashes)
  | _, bits, hashes => (missing, bits, hashes)

@[simp] theorem walk_nil_bits
    (k : ℕ) (hashes : List α) :
    walk k [] hashes = (missing, [], hashes) := by
  cases k <;> rfl

@[simp] theorem walk_nil_hashes
    (k : ℕ) (bits : List Bool) :
    walk k bits ([] : List α) = (missing, bits, []) := by
  cases k <;> cases bits <;> rfl

theorem walk_fits
    (k : ℕ) (bits : List Bool) (hashes : List α) :
    (walk k bits hashes).1.Fits k := by
  induction k generalizing bits hashes with
  | zero =>
      cases bits <;> cases hashes <;> simp [walk, Fits]
  | succ k ih =>
      rcases bits with _ | ⟨flag, bits⟩
      · simp [Fits]
      · rcases hashes with _ | ⟨hash, hashes⟩
        · simp [Fits]
        · cases flag with
          | false =>
              simp [walk, Fits]
          | true =>
              exact ⟨ih _ _, ih _ _⟩

theorem Full.trailing
    {t : PartialTree α}
    (h : t.Full) :
    t.Trailing := by
  induction t with
  | missing =>
      exact h.elim
  | leaf flag hash =>
      exact h
  | node left right _ ihr =>
      exact Or.inl ⟨h.1, ihr h.2⟩

theorem Full.ne_missing
    {t : PartialTree α}
    (h : t.Full) :
    t ≠ missing := by
  rintro rfl
  exact h

theorem hashes_ne_nil
    {t : PartialTree α}
    (htrail : t.Trailing)
    (hne : t ≠ missing) :
    t.hashes ≠ [] := by
  induction t with
  | missing =>
      exact absurd rfl hne
  | leaf flag hash =>
      simp [hashes]
  | node left right ihl _ =>
      have hleft : left.hashes ≠ [] := by
        rcases htrail with ⟨hfull, -⟩ | ⟨hlne, hl, -⟩
        · exact ihl hfull.trailing hfull.ne_missing
        · exact ihl hl hlne
      simp [hashes, hleft]

/-- Flags and hashes of a tree are read back as that tree.  Either nothing is
missing in it or no hash follows. -/
theorem walk_encoded
    {k : ℕ} {t : PartialTree α}
    (hfits : t.Fits k)
    (htrail : t.Trailing)
    (bits : List Bool) (hashes : List α)
    (hrest : t.Full ∨ hashes = []) :
    walk k (t.bits ++ bits) (t.hashes ++ hashes) = (t, bits, hashes) := by
  induction t generalizing k bits hashes with
  | missing =>
      have hnil : hashes = [] := hrest.resolve_left id
      simp [PartialTree.bits, PartialTree.hashes, hnil]
  | leaf flag hash =>
      cases k with
      | zero =>
          rfl
      | succ k =>
          have hflag : flag = false := hfits.resolve_left (Nat.succ_ne_zero k)
          simp [PartialTree.bits, PartialTree.hashes, walk, hflag]
  | node left right ihl ihr =>
      cases k with
      | zero =>
          exact hfits.elim
      | succ k =>
          have hlne : left ≠ missing := by
            rcases htrail with ⟨hl, -⟩ | ⟨hl, -⟩
            · exact hl.ne_missing
            · exact hl
          have hltrail : left.Trailing := by
            rcases htrail with ⟨hl, -⟩ | ⟨-, hl, -⟩
            · exact hl.trailing
            · exact hl
          have hrtrail : right.Trailing := by
            rcases htrail with ⟨-, hr⟩ | ⟨-, -, hr⟩
            · exact hr
            · exact hr ▸ trivial
          have hrrest : right.Full ∨ hashes = [] := hrest.imp_left And.right
          have hlrest : left.Full ∨ right.hashes ++ hashes = [] := by
            rcases htrail with ⟨hl, -⟩ | ⟨-, -, hr⟩
            · exact Or.inl hl
            · subst hr
              exact Or.inr (by simpa [PartialTree.hashes] using hrrest.resolve_left id)
          -- the flag of the node is only looked at while a hash is left
          obtain ⟨hash, tail, hcons⟩ :=
            List.exists_cons_of_ne_nil (hashes_ne_nil hltrail hlne)
          have hleft := ihl hfits.1 hltrail (right.bits ++ bits) (right.hashes ++ hashes) hlrest
          have hright := ihr hfits.2 hrtrail bits hashes hrrest
          rw [hcons] at hleft
          simp only [PartialTree.bits, PartialTree.hashes, hcons, List.cons_append,
            List.append_assoc, walk, if_true] at hleft ⊢
          rw [hleft, hright]

theorem length_hashes_le
    {k : ℕ} {t : PartialTree α}
    (hfits : t.Fits k) :
    t.hashes.length ≤ 2 ^ k := by
  induction t generalizing k with
  | missing =>
      simp [hashes]
  | leaf flag hash =>
      exact Nat.one_le_two_pow
  | node left right ihl ihr =>
      cases k with
      | zero =>
          exact hfits.elim
      | succ k =>
          have hl := ihl hfits.1
          have hr := ihr hfits.2
          rw [hashes, List.length_append, pow_succ]
          omega

theorem length_bits_lt
    {k : ℕ} {t : PartialTree α}
    (hfits : t.Fits k) :
    t.bits.length < 2 ^ (k + 1) := by
  induction t generalizing k with
  | missing =>
      exact Nat.two_pow_pos _
  | leaf flag hash =>
      exact Nat.one_lt_two_pow (Nat.succ_ne_zero k)
  | node left right ihl ihr =>
      cases k with
      | zero =>
          exact hfits.elim
      | succ k =>
          have hl := ihl hfits.1
          have hr := ihr hfits.2
          rw [bits, List.length_cons, List.length_append, pow_succ]
          omega

section Eval

variable [DecidableEq α]
variable (combine : α → α → α) (zero : α)

/-- The root of a partial tree and whether the computation was given up.  Two
equal children, or a left child without a value, give it up; from then on
every branch counts as missing, and a missing branch has the value `zero`. -/
def eval : PartialTree α → Bool → α × Bool
  | _, true => (zero, true)
  | missing, false => (zero, false)
  | leaf _ hash, false => (hash, false)
  | node left right, false =>
      let l := left.eval false
      let r := right.eval l.2
      if l.1 ≠ zero ∧ l.1 ≠ r.1 then
        (combine l.1 (if r.1 = zero then l.1 else r.1), r.2)
      else (zero, true)

@[simp] theorem eval_true
    (t : PartialTree α) :
    t.eval combine zero true = (zero, true) := by
  cases t <;> rfl

end Eval

section Prune

variable (combine : α → α → α) (select : α → Bool)

/-- Expand the nodes above at least one selected leaf. -/
def prune : ℕ → List α → PartialTree α
  | 0, [] => missing
  | 0, a :: _ => leaf (select a) a
  | k + 1, l =>
      match subtree combine (k + 1) l with
      | none => missing
      | some hash =>
          if l.any select then
            node (prune k (l.take (2 ^ k))) (prune k (l.drop (2 ^ k)))
          else leaf false hash

@[simp] theorem prune_nil
    (k : ℕ) :
    prune combine select k [] = missing := by
  cases k <;> simp [prune]

variable {combine select}

theorem prune_succ
    {k : ℕ} {l : List α} {a : α}
    (ha : subtree combine (k + 1) l = some a) :
    prune combine select (k + 1) l =
      if l.any select then
        node (prune combine select k (l.take (2 ^ k))) (prune combine select k (l.drop (2 ^ k)))
      else leaf false a := by
  rw [prune, ha]

theorem prune_ne_missing
    {k : ℕ} {l : List α}
    (hl : l ≠ []) :
    prune combine select k l ≠ missing := by
  cases k with
  | zero =>
      obtain ⟨a, l, rfl⟩ := List.exists_cons_of_ne_nil hl
      simp [prune]
  | succ k =>
      obtain ⟨a, ha⟩ := subtree_isSome combine (k := k + 1) hl
      rw [prune_succ ha]
      split <;> simp

theorem prune_fits
    (k : ℕ) (l : List α) :
    (prune combine select k l).Fits k := by
  induction k generalizing l with
  | zero =>
      cases l <;> simp [prune, Fits]
  | succ k ih =>
      by_cases hl : l = []
      · simp [hl, Fits]
      · obtain ⟨a, ha⟩ := subtree_isSome combine (k := k + 1) hl
        rw [prune_succ ha]
        split
        · exact ⟨ih _, ih _⟩
        · exact Or.inr rfl

theorem prune_full
    {k : ℕ} {l : List α}
    (hlen : l.length = 2 ^ k) :
    (prune combine select k l).Full := by
  induction k generalizing l with
  | zero =>
      obtain ⟨a, rfl⟩ := List.length_eq_one_iff.mp hlen
      trivial
  | succ k ih =>
      rw [pow_succ] at hlen
      have hl : l ≠ [] := by
        rintro rfl
        simp at hlen
      obtain ⟨a, ha⟩ := subtree_isSome combine (k := k + 1) hl
      rw [prune_succ ha]
      split
      · exact ⟨ih (by rw [List.length_take]; omega), ih (by rw [List.length_drop]; omega)⟩
      · trivial

/-- Only the last branches of a pruned tree are missing. -/
theorem prune_trailing
    {k : ℕ} {l : List α}
    (hlen : l.length ≤ 2 ^ k) :
    (prune combine select k l).Trailing := by
  induction k generalizing l with
  | zero =>
      cases l <;> trivial
  | succ k ih =>
      rw [pow_succ] at hlen
      by_cases hl : l = []
      · simp [hl, Trailing]
      · obtain ⟨a, ha⟩ := subtree_isSome combine (k := k + 1) hl
        rw [prune_succ ha]
        split
        · by_cases hshort : l.length ≤ 2 ^ k
          · rw [List.take_of_length_le hshort, List.drop_of_length_le hshort, prune_nil]
            exact Or.inr ⟨prune_ne_missing hl, ih hshort, rfl⟩
          · exact Or.inl ⟨prune_full (by rw [List.length_take]; omega),
              ih (by rw [List.length_drop]; omega)⟩
        · trivial

/-- The flagged leaves of a pruned tree are the selected ones, in order. -/
theorem matched_prune
    {k : ℕ} {l : List α}
    (hlen : l.length ≤ 2 ^ k) :
    (prune combine select k l).matched = l.filter select := by
  induction k generalizing l with
  | zero =>
      match l, hlen with
      | [], _ =>
          rfl
      | [a], _ =>
          by_cases hsel : select a = true <;> simp [prune, matched, hsel]
  | succ k ih =>
      rw [pow_succ] at hlen
      by_cases hl : l = []
      · simp [hl, matched]
      · obtain ⟨a, ha⟩ := subtree_isSome combine (k := k + 1) hl
        rw [prune_succ ha]
        split
        · rw [matched, ih (by rw [List.length_take]; omega), ih (by rw [List.length_drop]; omega),
            ← List.filter_append, List.take_append_drop]
        · rename_i hany
          have hnone : l.filter select = [] := by
            simpa using hany
          rw [hnone]
          rfl

/-- A pruned tree of leaves without repetition evaluates to the node it was
made from. -/
theorem eval_prune
    [DecidableEq α]
    {zero : α}
    (hinj : Function.Injective2 combine)
    (hzero : ∀ a b, combine a b ≠ zero)
    {k : ℕ} {l : List α} {a : α}
    (hnodup : l.Nodup)
    (hmem : zero ∉ l)
    (ha : subtree combine k l = some a) :
    (prune combine select k l).eval combine zero false = (a, false) := by
  induction k generalizing l a with
  | zero =>
      cases l with
      | nil =>
          simp at ha
      | cons b l =>
          obtain rfl : b = a := by simpa [subtree] using ha
          rfl
  | succ k ih =>
      rw [prune_succ ha]
      split
      · obtain ⟨b, hb, hcomb⟩ := join_eq_some_iff.mp ha
        have hsplit : (l.take (2 ^ k) ++ l.drop (2 ^ k)).Nodup := by
          rwa [List.take_append_drop]
        have hbne : b ≠ zero := subtree_ne hzero (fun h => hmem (List.mem_of_mem_take h)) hb
        have hleft := ih (hsplit.sublist (List.sublist_append_left _ _))
          (fun h => hmem (List.mem_of_mem_take h)) hb
        rw [eval, hleft]
        cases hc : subtree combine k (l.drop (2 ^ k)) with
        | none =>
            have hnil : l.drop (2 ^ k) = [] := by
              by_contra hne
              obtain ⟨c, hc'⟩ := subtree_isSome combine (k := k) hne
              rw [hc] at hc'
              cases hc'
            rw [hc, Option.getD_none] at hcomb
            simp [hnil, eval, hbne, hcomb]
        | some c =>
            have hright := ih (hsplit.sublist (List.sublist_append_right _ _))
              (fun h => hmem (List.mem_of_mem_drop h)) hc
            have hcne : c ≠ zero := subtree_ne hzero (fun h => hmem (List.mem_of_mem_drop h)) hc
            have hne : b ≠ c := subtree_ne_of_nodup_append hinj hsplit hb hc
            rw [hc, Option.getD_some] at hcomb
            simp [hright, hbne, hcne, hne, hcomb]
      · rfl

end Prune

end PartialTree

end MerkleTree
