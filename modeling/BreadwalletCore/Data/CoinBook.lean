import Mathlib.Algebra.BigOperators.Group.List.Basic
import Mathlib.Data.Finset.Basic
import Mathlib.Data.List.Flatten
import Mathlib.Data.List.Nodup
import Mathlib.Tactic

/-!
# Books of coins

A book is filled by entering items from left to right.  Each item creates
coins (an outpoint with an amount) and spends outpoints.  When an item is
entered it is judged, from what has been entered so far, to be invalid,
pending or counted:

* an invalid item leaves no trace but its mark;
* a pending item spends its inputs and creates nothing;
* a counted item spends its inputs, creates its coins, and then every coin
  whose outpoint has been spent is struck off.

Since only counted items strike coins off, an outpoint spent by a pending item
is struck off at the next counted item, if there is one.  The field `settled`
records the spent set at the last counted item, and `book_coins` says that the
coins of a book are exactly the created coins outside `settled`.

Items, keys, outpoints and amounts are arbitrary types; the rules for judging
an item are a parameter.
-/

namespace CoinBook

universe u v w x

/-- What the book makes of an item. -/
inductive Verdict where
  | invalid
  | pending
  | counted
deriving DecidableEq, Repr

/-- How items are named, what they spend and create, and how they are judged
from the spent set, the invalid marks and the pending marks so far. -/
structure Rules (τ : Type u) (κ : Type v) (ο : Type w) (A : Type x) where
  key : τ → κ
  spends : τ → Finset ο
  credits : τ → List (ο × A)
  judge : Finset ο → Finset κ → Finset κ → τ → Verdict

/-- The state of a book. -/
structure Book (τ : Type u) (κ : Type v) (ο : Type w) (A : Type x) where
  counted : List τ := []
  spent : Finset ο := ∅
  settled : Finset ο := ∅
  invalid : Finset κ := ∅
  pending : Finset κ := ∅
  coins : List (ο × A) := []
  hist : List A := []

/-- The amount of a list of coins. -/
def total {ο : Type w} {A : Type x} [AddCommMonoid A] (cs : List (ο × A)) : A :=
  (cs.map Prod.snd).sum

theorem total_perm
    {ο : Type w} {A : Type x} [AddCommMonoid A] {cs ds : List (ο × A)}
    (h : cs.Perm ds) :
    total cs = total ds :=
  (h.map Prod.snd).sum_eq

theorem total_append
    {ο : Type w} {A : Type x} [AddCommMonoid A] (cs ds : List (ο × A)) :
    total (cs ++ ds) = total cs + total ds := by
  simp [total]

section Split

variable {τ : Type u}

/-- Some position of the list satisfies `Q`, a statement about the part in
front of the position and the item at it. -/
def AtSome (l : List τ) (Q : List τ → τ → Prop) : Prop :=
  ∃ pre t post, l = pre ++ t :: post ∧ Q pre t

/-- Splitting a list with a new last item at one of its positions. -/
theorem concat_split
    {l pre post : List τ} {x t : τ}
    (h : l ++ [x] = pre ++ t :: post) :
    (pre = l ∧ t = x ∧ post = []) ∨
      ∃ post', post = post' ++ [x] ∧ l = pre ++ t :: post' := by
  induction post using List.reverseRecOn with
  | nil =>
      have := List.append_inj' h rfl
      left
      simpa [eq_comm] using this
  | append_singleton post y _ =>
      right
      rw [← List.cons_append, ← List.append_assoc] at h
      obtain ⟨h₁, h₂⟩ := List.append_inj' h rfl
      cases h₂
      exact ⟨post, rfl, h₁⟩

@[simp] theorem atSome_nil
    (Q : List τ → τ → Prop) :
    ¬ AtSome [] Q := by
  rintro ⟨pre, t, post, h, -⟩
  simp at h

theorem atSome_concat
    {l : List τ} {x : τ} {Q : List τ → τ → Prop} :
    AtSome (l ++ [x]) Q ↔ AtSome l Q ∨ Q l x := by
  constructor
  · rintro ⟨pre, t, post, h, hQ⟩
    rcases concat_split h with ⟨rfl, rfl, rfl⟩ | ⟨post', rfl, rfl⟩
    · exact Or.inr hQ
    · exact Or.inl ⟨pre, t, post', rfl, hQ⟩
  · rintro (⟨pre, t, post, rfl, hQ⟩ | hQ)
    · exact ⟨pre, t, post ++ [x], by simp, hQ⟩
    · exact ⟨l, x, [], rfl, hQ⟩

/-- With distinct keys a key determines its position. -/
theorem split_unique
    {κ : Type v} {key : τ → κ}
    {l pre₁ pre₂ post₁ post₂ : List τ} {t₁ t₂ : τ}
    (hnodup : (l.map key).Nodup)
    (h₁ : l = pre₁ ++ t₁ :: post₁)
    (h₂ : l = pre₂ ++ t₂ :: post₂)
    (hkey : key t₁ = key t₂) :
    pre₁ = pre₂ ∧ t₁ = t₂ ∧ post₁ = post₂ := by
  have hi₁ : pre₁.length < (l.map key).length := by simp [h₁]
  have hi₂ : pre₂.length < (l.map key).length := by simp [h₂]
  have hg₁ : (l.map key)[pre₁.length] = key t₁ := by simp [h₁]
  have hg₂ : (l.map key)[pre₂.length] = key t₂ := by simp [h₂]
  have hlen : pre₁.length = pre₂.length := by
    apply hnodup.getElem_inj_iff.mp
    rw [hg₁, hg₂, hkey]
  obtain ⟨hpre, hrest⟩ := List.append_inj (h₁.symm.trans h₂) hlen
  cases hrest
  exact ⟨hpre, rfl, rfl⟩

end Split

section Book

variable {τ : Type u} {κ : Type v} {ο : Type w} {A : Type x}
variable [DecidableEq κ] [DecidableEq ο] [AddCommMonoid A]

/-- The verdict on an item, given the book so far. -/
def Rules.verdict (R : Rules τ κ ο A) (b : Book τ κ ο A) (t : τ) : Verdict :=
  R.judge b.spent b.invalid b.pending t

/-- Enter one item. -/
def Book.enter (R : Rules τ κ ο A) (b : Book τ κ ο A) (t : τ) : Book τ κ ο A :=
  match R.verdict b t with
  | .invalid =>
      { b with
        invalid := insert (R.key t) b.invalid
        hist := b.hist ++ [total b.coins] }
  | .pending =>
      { b with
        spent := b.spent ∪ R.spends t
        pending := insert (R.key t) b.pending
        hist := b.hist ++ [total b.coins] }
  | .counted =>
      let spent := b.spent ∪ R.spends t
      let coins := (b.coins ++ R.credits t).filter (fun c => c.1 ∉ spent)
      { b with
        counted := b.counted ++ [t]
        spent := spent
        settled := spent
        coins := coins
        hist := b.hist ++ [total coins] }

/-- The book of a list of items. -/
def book (R : Rules τ κ ο A) (l : List τ) : Book τ κ ο A :=
  l.foldl (Book.enter R) {}

/-- The verdict on an item entered after the items of `pre`. -/
def verdictAt (R : Rules τ κ ο A) (pre : List τ) (t : τ) : Verdict :=
  R.verdict (book R pre) t

variable (R : Rules τ κ ο A)

@[simp] theorem book_nil :
    book R [] = {} := by
  rfl

theorem book_concat
    (l : List τ) (t : τ) :
    book R (l ++ [t]) = (book R l).enter R t := by
  simp [book]

/-! ## Marks -/

/-- A key is marked invalid iff some item with that key was judged so. -/
theorem mem_invalid
    (l : List τ) (k : κ) :
    k ∈ (book R l).invalid ↔
      AtSome l (fun pre t => verdictAt R pre t = .invalid ∧ R.key t = k) := by
  induction l using List.reverseRecOn with
  | nil =>
      simp
  | append_singleton l t ih =>
      rw [book_concat, atSome_concat, ← ih, Book.enter, verdictAt]
      cases hv : R.verdict (book R l) t <;> simp [eq_comm, or_comm]

/-- A key is marked pending iff some item with that key was judged so. -/
theorem mem_pending
    (l : List τ) (k : κ) :
    k ∈ (book R l).pending ↔
      AtSome l (fun pre t => verdictAt R pre t = .pending ∧ R.key t = k) := by
  induction l using List.reverseRecOn with
  | nil =>
      simp
  | append_singleton l t ih =>
      rw [book_concat, atSome_concat, ← ih, Book.enter, verdictAt]
      cases hv : R.verdict (book R l) t <;> simp [eq_comm, or_comm]

/-- An item is counted iff it was judged so at one of its positions. -/
theorem mem_counted
    (l : List τ) (x : τ) :
    x ∈ (book R l).counted ↔
      AtSome l (fun pre t => verdictAt R pre t = .counted ∧ t = x) := by
  induction l using List.reverseRecOn with
  | nil =>
      simp
  | append_singleton l t ih =>
      rw [book_concat, atSome_concat, ← ih, Book.enter, verdictAt]
      cases hv : R.verdict (book R l) t <;> simp [eq_comm]

/-- The spent set collects the inputs of the items that are not invalid. -/
theorem mem_spent
    (l : List τ) (o : ο) :
    o ∈ (book R l).spent ↔
      AtSome l (fun pre t => verdictAt R pre t ≠ .invalid ∧ o ∈ R.spends t) := by
  induction l using List.reverseRecOn with
  | nil =>
      simp
  | append_singleton l t ih =>
      rw [book_concat, atSome_concat, ← ih, Book.enter, verdictAt]
      cases hv : R.verdict (book R l) t <;> simp

theorem counted_sublist
    (l : List τ) :
    List.Sublist (book R l).counted l := by
  induction l using List.reverseRecOn with
  | nil =>
      simp
  | append_singleton l t ih =>
      rw [book_concat, Book.enter]
      cases hv : R.verdict (book R l) t with
      | invalid =>
          exact ih.trans (List.sublist_append_left l [t])
      | pending =>
          exact ih.trans (List.sublist_append_left l [t])
      | counted =>
          exact ih.append_right [t]

section Positions

variable {l pre post : List τ} {t : τ}
variable (hnodup : (l.map R.key).Nodup) (hl : l = pre ++ t :: post)
include hnodup hl

/-- With distinct keys a mark tells the verdict at the item's own position. -/
theorem key_mem_invalid_iff :
    R.key t ∈ (book R l).invalid ↔ verdictAt R pre t = .invalid := by
  rw [mem_invalid]
  constructor
  · rintro ⟨pre', t', post', hl', hv, hk⟩
    obtain ⟨rfl, rfl, -⟩ := split_unique hnodup hl' hl hk
    exact hv
  · intro hv
    exact ⟨pre, t, post, hl, hv, rfl⟩

theorem key_mem_pending_iff :
    R.key t ∈ (book R l).pending ↔ verdictAt R pre t = .pending := by
  rw [mem_pending]
  constructor
  · rintro ⟨pre', t', post', hl', hv, hk⟩
    obtain ⟨rfl, rfl, -⟩ := split_unique hnodup hl' hl hk
    exact hv
  · intro hv
    exact ⟨pre, t, post, hl, hv, rfl⟩

theorem mem_counted_iff :
    t ∈ (book R l).counted ↔ verdictAt R pre t = .counted := by
  rw [mem_counted]
  constructor
  · rintro ⟨pre', t', post', hl', hv, ht⟩
    obtain ⟨rfl, rfl, -⟩ := split_unique hnodup hl' hl (congrArg R.key ht)
    exact hv
  · intro hv
    exact ⟨pre, t, post, hl, hv, rfl⟩

end Positions

/-- With distinct keys the counted items are those without a mark. -/
theorem mem_counted_iff_unmarked
    {l : List τ}
    (hnodup : (l.map R.key).Nodup)
    (t : τ) :
    t ∈ (book R l).counted ↔
      t ∈ l ∧ R.key t ∉ (book R l).invalid ∧ R.key t ∉ (book R l).pending := by
  constructor
  · intro ht
    have hmem := (counted_sublist R l).subset ht
    obtain ⟨pre, post, hl⟩ := List.append_of_mem hmem
    have hv := (mem_counted_iff R hnodup hl).mp ht
    rw [key_mem_invalid_iff R hnodup hl, key_mem_pending_iff R hnodup hl, hv]
    exact ⟨hmem, by simp, by simp⟩
  · rintro ⟨hmem, hinv, hpend⟩
    obtain ⟨pre, post, hl⟩ := List.append_of_mem hmem
    rw [key_mem_invalid_iff R hnodup hl] at hinv
    rw [key_mem_pending_iff R hnodup hl] at hpend
    rw [mem_counted_iff R hnodup hl]
    cases hv : verdictAt R pre t with
    | invalid =>
        exact absurd hv hinv
    | pending =>
        exact absurd hv hpend
    | counted =>
        rfl

/-- With distinct keys the spent set is what the unmarked-invalid items spend. -/
theorem mem_spent_iff_not_invalid
    {l : List τ}
    (hnodup : (l.map R.key).Nodup)
    (o : ο) :
    o ∈ (book R l).spent ↔
      ∃ t ∈ l, R.key t ∉ (book R l).invalid ∧ o ∈ R.spends t := by
  rw [mem_spent]
  constructor
  · rintro ⟨pre, t, post, hl, hv, ho⟩
    refine ⟨t, by simp [hl], ?_, ho⟩
    rwa [key_mem_invalid_iff R hnodup hl]
  · rintro ⟨t, ht, hinv, ho⟩
    obtain ⟨pre, post, hl⟩ := List.append_of_mem ht
    rw [key_mem_invalid_iff R hnodup hl] at hinv
    exact ⟨pre, t, post, hl, hinv, ho⟩

/-! ## Coins -/

theorem settled_subset_spent
    (l : List τ) :
    (book R l).settled ⊆ (book R l).spent := by
  induction l using List.reverseRecOn with
  | nil =>
      simp
  | append_singleton l t ih =>
      rw [book_concat, Book.enter]
      cases hv : R.verdict (book R l) t with
      | invalid =>
          exact ih
      | pending =>
          exact ih.trans Finset.subset_union_left
      | counted =>
          exact Finset.Subset.refl _

/-- **The coins of a book**: what the counted items created, less what had been
spent when the last of them was entered. -/
theorem book_coins
    (l : List τ) :
    (book R l).coins =
      ((book R l).counted.flatMap R.credits).filter
        (fun c => c.1 ∉ (book R l).settled) := by
  induction l using List.reverseRecOn with
  | nil =>
      rfl
  | append_singleton l t ih =>
      have hsub := settled_subset_spent R l
      rw [book_concat, Book.enter]
      cases hv : R.verdict (book R l) t with
      | invalid =>
          exact ih
      | pending =>
          exact ih
      | counted =>
          simp only [List.flatMap_append, List.filter_append]
          rw [ih, List.filter_filter]
          congr 1
          · apply List.filter_congr
            intro c _
            by_cases h : c.1 ∈ (book R l).settled
            · simp [h, hsub h]
            · simp [h]
          · simp

/-- One amount is recorded for each item. -/
theorem hist_length
    (l : List τ) :
    (book R l).hist.length = l.length := by
  induction l using List.reverseRecOn with
  | nil =>
      rfl
  | append_singleton l t ih =>
      rw [book_concat, Book.enter]
      cases hv : R.verdict (book R l) t <;> simp [ih]

/-- The entry of an item is the amount of the coins behind it. -/
theorem hist_getElem
    {l pre post : List τ} {t : τ}
    (h : l = pre ++ t :: post) :
    (book R l).hist[pre.length]? = some (total (book R (pre ++ [t])).coins) := by
  induction l using List.reverseRecOn generalizing post with
  | nil =>
      simp at h
  | append_singleton l x ih =>
      have hlen := hist_length R l
      have hstep : (book R (l ++ [x])).hist =
          (book R l).hist ++ [total (book R (l ++ [x])).coins] := by
        rw [book_concat, Book.enter]
        cases R.verdict (book R l) x <;> rfl
      rw [hstep]
      rcases concat_split h with ⟨rfl, rfl, rfl⟩ | ⟨post', rfl, rfl⟩
      · rw [List.getElem?_append_right (by omega), hlen, Nat.sub_self]
        rfl
      · rw [List.getElem?_append_left (by simp [hlen])]
        exact ih rfl

/-- The coins are created by counted items. -/
theorem mem_coins
    {l : List τ} {c : ο × A} :
    c ∈ (book R l).coins ↔
      (∃ t ∈ (book R l).counted, c ∈ R.credits t) ∧ c.1 ∉ (book R l).settled := by
  rw [book_coins]
  simp [and_comm]

/-- Distinct outpoints give distinct coins. -/
theorem coins_nodup
    {l : List τ}
    (hout : ((l.flatMap R.credits).map Prod.fst).Nodup) :
    ((book R l).coins.map Prod.fst).Nodup := by
  rw [book_coins]
  refine hout.sublist (List.Sublist.map _ ?_)
  exact List.filter_sublist.trans ((counted_sublist R l).flatMap R.credits)

/-- Entering an item adds some of its coins and then only strikes off coins
that are in the book. -/
theorem enter_coins_perm
    (b : Book τ κ ο A) (t : τ) :
    ∃ added struck, List.Sublist added (R.credits t) ∧
      List.Perm ((b.enter R t).coins ++ struck) (b.coins ++ added) := by
  rw [Book.enter]
  cases R.verdict b t with
  | invalid =>
      exact ⟨[], [], List.nil_sublist _, List.Perm.refl _⟩
  | pending =>
      exact ⟨[], [], List.nil_sublist _, List.Perm.refl _⟩
  | counted =>
      refine ⟨R.credits t,
        (b.coins ++ R.credits t).filter
          (fun c => ! decide (c.1 ∉ b.spent ∪ R.spends t)),
        List.Sublist.refl _, ?_⟩
      exact List.filter_append_perm _ _

/-! ## Pending items behind the last counted one -/

/-- A pending item with no counted item behind it spends the outpoint. -/
def PendingTail (l : List τ) (o : ο) : Prop :=
  ∃ pre t post, l = pre ++ t :: post ∧
    verdictAt R pre t = .pending ∧ o ∈ R.spends t ∧
    ∀ mid u rest, post = mid ++ u :: rest →
      verdictAt R (pre ++ t :: mid) u ≠ .counted

theorem pendingTail_nil
    (o : ο) :
    ¬ PendingTail R [] o := by
  rintro ⟨pre, t, post, h, -⟩
  simp at h

theorem pendingTail_concat
    {l : List τ} {x : τ} {o : ο} :
    PendingTail R (l ++ [x]) o ↔
      verdictAt R l x ≠ .counted ∧
        (PendingTail R l o ∨ verdictAt R l x = .pending ∧ o ∈ R.spends x) := by
  constructor
  · rintro ⟨pre, t, post, h, hv, ho, htail⟩
    rcases concat_split h with ⟨rfl, rfl, rfl⟩ | ⟨post', rfl, rfl⟩
    · exact ⟨by simp [hv], Or.inr ⟨hv, ho⟩⟩
    · refine ⟨htail post' x [] rfl, Or.inl ⟨pre, t, post', rfl, hv, ho, ?_⟩⟩
      rintro mid u rest rfl
      exact htail mid u (rest ++ [x]) (by simp)
  · rintro ⟨hx, ⟨pre, t, post, rfl, hv, ho, htail⟩ | ⟨hv, ho⟩⟩
    · refine ⟨pre, t, post ++ [x], by simp, hv, ho, ?_⟩
      intro mid u rest h
      rcases concat_split h with ⟨rfl, rfl, rfl⟩ | ⟨rest', rfl, rfl⟩
      · exact hx
      · exact htail mid u rest' rfl
    · refine ⟨l, x, [], rfl, hv, ho, ?_⟩
      intro mid u rest h
      simp at h

/-- What has been spent but not struck off yet. -/
theorem mem_spent_iff_settled
    (l : List τ) (o : ο) :
    o ∈ (book R l).spent ↔ o ∈ (book R l).settled ∨ PendingTail R l o := by
  induction l using List.reverseRecOn with
  | nil =>
      simp [pendingTail_nil]
  | append_singleton l t ih =>
      rw [pendingTail_concat, book_concat, Book.enter, verdictAt]
      cases hv : R.verdict (book R l) t <;> simp [ih, or_assoc]

/-- If a pending item never spends what is spent already, the outpoints of
`PendingTail` have not been struck off. -/
theorem not_mem_settled_of_pendingTail
    (hjudge : ∀ s i p t, R.judge s i p t = .pending → Disjoint (R.spends t) s)
    {l : List τ} {o : ο}
    (h : PendingTail R l o) :
    o ∉ (book R l).settled := by
  induction l using List.reverseRecOn with
  | nil =>
      exact absurd h (pendingTail_nil R o)
  | append_singleton l t ih =>
      rw [pendingTail_concat, verdictAt] at h
      obtain ⟨hne, h⟩ := h
      have hsame : (book R (l ++ [t])).settled = (book R l).settled := by
        rw [book_concat, Book.enter]
        cases hv : R.verdict (book R l) t with
        | invalid =>
            rfl
        | pending =>
            rfl
        | counted =>
            exact absurd hv hne
      rw [hsame]
      rcases h with h | ⟨hv, ho⟩
      · exact ih h
      · intro hmem
        exact Finset.disjoint_left.mp (hjudge _ _ _ t hv) ho
          (settled_subset_spent R l hmem)

/-! ## Books of rewritten items -/

/--
Rewriting the items by `f` and changing the rules keeps the book, if every item
keeps its key and what it spends, is judged as before, and creates the same
coins where it is counted.
-/
theorem book_map
    {R' : Rules τ κ ο A} {f : τ → τ} {l : List τ}
    (hkey : ∀ t, R'.key (f t) = R.key t)
    (hspends : ∀ t, R'.spends (f t) = R.spends t)
    (hjudge : ∀ pre t post, l = pre ++ t :: post →
      R'.judge (book R pre).spent (book R pre).invalid (book R pre).pending (f t) =
        verdictAt R pre t)
    (hcredits : ∀ pre t post, l = pre ++ t :: post →
      verdictAt R pre t = .counted → R'.credits (f t) = R.credits t) :
    book R' (l.map f) = { book R l with counted := (book R l).counted.map f } := by
  induction l using List.reverseRecOn with
  | nil =>
      rfl
  | append_singleton l t ih =>
      have hl := ih
        (fun pre x post h => hjudge pre x (post ++ [t]) (by simp [h]))
        (fun pre x post h => hcredits pre x (post ++ [t]) (by simp [h]))
      have hverdict := hjudge l t [] rfl
      have hcoins := hcredits l t [] rfl
      rw [List.map_append, List.map_singleton, book_concat, book_concat, hl,
        Book.enter, Book.enter]
      have hsame : R'.verdict { book R l with counted := (book R l).counted.map f } (f t) =
          R.verdict (book R l) t := hverdict
      rw [hsame]
      rw [verdictAt] at hcoins
      cases hv : R.verdict (book R l) t with
      | invalid =>
          simp [hkey]
      | pending =>
          simp [hkey, hspends]
      | counted =>
          simp [hspends, hcoins hv]

/-! ## Lists on which every item is counted -/

section AllCounted

variable {l : List τ}
variable (hall : ∀ s i p, ∀ t ∈ l, R.judge s i p t = .counted)
include hall

theorem counted_of_all :
    (book R l).counted = l := by
  induction l using List.reverseRecOn with
  | nil =>
      rfl
  | append_singleton l t ih =>
      have hl := ih (fun s i p x hx => hall s i p x (by simp [hx]))
      have hv : R.verdict (book R l) t = .counted := hall _ _ _ t (by simp)
      rw [book_concat, Book.enter, hv]
      simp [hl]

theorem mem_spent_of_all
    (o : ο) :
    o ∈ (book R l).spent ↔ ∃ t ∈ l, o ∈ R.spends t := by
  rw [mem_spent]
  constructor
  · rintro ⟨pre, t, post, rfl, -, ho⟩
    exact ⟨t, by simp, ho⟩
  · rintro ⟨t, ht, ho⟩
    obtain ⟨pre, post, rfl⟩ := List.append_of_mem ht
    refine ⟨pre, t, post, rfl, ?_, ho⟩
    rw [verdictAt, Rules.verdict, hall _ _ _ t ht]
    simp

theorem settled_of_all :
    (book R l).settled = (book R l).spent := by
  induction l using List.reverseRecOn with
  | nil =>
      rfl
  | append_singleton l t _ =>
      have hv : R.verdict (book R l) t = .counted := hall _ _ _ t (by simp)
      rw [book_concat, Book.enter, hv]

end AllCounted

/-- When every item is counted, the order of the items does not matter. -/
theorem spent_perm_of_all
    {l₁ l₂ : List τ}
    (hperm : l₁.Perm l₂)
    (hall : ∀ s i p, ∀ t ∈ l₁, R.judge s i p t = .counted) :
    (book R l₁).spent = (book R l₂).spent := by
  have hall₂ : ∀ s i p, ∀ t ∈ l₂, R.judge s i p t = .counted :=
    fun s i p t ht => hall s i p t (hperm.mem_iff.mpr ht)
  ext o
  simp only [mem_spent_of_all R hall, mem_spent_of_all R hall₂, hperm.mem_iff]

theorem coins_perm_of_all
    {l₁ l₂ : List τ}
    (hperm : l₁.Perm l₂)
    (hall : ∀ s i p, ∀ t ∈ l₁, R.judge s i p t = .counted) :
    (book R l₁).coins.Perm (book R l₂).coins := by
  have hall₂ : ∀ s i p, ∀ t ∈ l₂, R.judge s i p t = .counted :=
    fun s i p t ht => hall s i p t (hperm.mem_iff.mpr ht)
  rw [book_coins, book_coins, counted_of_all R hall, counted_of_all R hall₂,
    settled_of_all R hall, settled_of_all R hall₂, spent_perm_of_all R hperm hall]
  exact (hperm.flatMap_right R.credits).filter _

end Book

end CoinBook
