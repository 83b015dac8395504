import BreadwalletCore.Data.BlockPadding

/-!
# Hashes of blocks

A `BlockHash` pads a message to whole blocks, and takes a state through them
(`BlockHash.digest`).  Two of them with one padding agree if a function between their states
commutes with the compression of a block (`BlockHash.digest_eq`).
-/

namespace LittleEndian

/-- The bits of a number are those of its bytes. -/
theorem testBit_value
    (l : List UInt8) (j : ℕ) :
    (value l).testBit j = (l.getD (j / 8) 0).toNat.testBit (j % 8) := by
  induction l generalizing j with
  | nil =>
      simp [value]
  | cons b l ih =>
      have hb : b.toNat < 2 ^ 8 := b.toNat_lt
      rw [value, Nat.add_comm, show (256 : ℕ) = 2 ^ 8 from rfl, Nat.testBit_two_pow_mul_add _ hb]
      by_cases hj : j < 8
      · rw [if_pos hj, Nat.div_eq_of_lt hj, Nat.mod_eq_of_lt hj, List.getD_cons_zero]
      · rw [if_neg hj, ih, show j / 8 = (j - 8) / 8 + 1 by omega, List.getD_cons_succ,
          show (j - 8) % 8 = j % 8 by omega]

/-- A word is the number of its bytes, high byte first. -/
theorem ofNat_value_reverse
    {n : ℕ} {l : List UInt8} {x y : BitVec (8 * n)}
    (hl : l.length = n)
    (hx : x.toNat = value l)
    (hy : ∀ i < 8 * n, y.getLsbD i = x.getLsbD (8 * (n - 1 - i / 8) + i % 8)) :
    y = BitVec.ofNat (8 * n) (value l.reverse) := by
  apply BitVec.eq_of_getLsbD_eq
  intro i hi
  have hpos : i / 8 < l.length := by omega
  have hindex : (8 * (n - 1 - i / 8) + i % 8) / 8 = n - 1 - i / 8 := by omega
  have hbit : (8 * (n - 1 - i / 8) + i % 8) % 8 = i % 8 := by omega
  rw [hy i hi, BitVec.getLsbD, hx, testBit_value, hindex, hbit, BitVec.getLsbD_ofNat,
    decide_eq_true hi, Bool.true_and, testBit_value, List.getD_eq_getElem _ _ (by omega),
    List.getD_eq_getElem _ _ (by rw [List.length_reverse]; exact hpos), List.getElem_reverse]
  simp only [hl]

end LittleEndian

/-- A hash function that goes through the blocks of the padded message. -/
structure BlockHash (σ : Type) where
  size : ℕ
  /-- what ends the padding of a message of a length -/
  field : ℕ → List UInt8
  init : σ
  compress : σ → List UInt8 → σ
  output : σ → List UInt8

namespace BlockHash

open BlockPadding

/-- The blocks of a message. -/
def blocksOf {σ : Type} (H : BlockHash σ) (message : List UInt8) : List (List UInt8) :=
  blocks H.size (padded H.size (H.field message.length) message)

/-- The hash of a message. -/
def digest {σ : Type} (H : BlockHash σ) (message : List UInt8) : List UInt8 :=
  H.output ((H.blocksOf message).foldl H.compress H.init)

theorem length_of_mem_blocks
    {size : ℕ} {l b : List UInt8}
    (hb : b ∈ blocks size l) :
    b.length = size := by
  obtain ⟨k, hk, rfl⟩ := List.mem_map.mp hb
  have hle : size * (k + 1) ≤ l.length :=
    (Nat.mul_le_mul_left size (List.mem_range.mp hk)).trans (Nat.mul_div_le _ _)
  rw [Segment.slice, List.length_take, List.length_drop]
  rw [Nat.mul_succ] at hle
  omega

/-- A function between states goes along with a run. -/
theorem foldl_map
    {σ τ : Type} {f : σ → List UInt8 → σ} {g : τ → List UInt8 → τ} {φ : σ → τ}
    {l : List (List UInt8)}
    (hstep : ∀ s, ∀ b ∈ l, φ (f s b) = g (φ s) b) (s : σ) :
    φ (l.foldl f s) = l.foldl g (φ s) := by
  induction l generalizing s with
  | nil =>
      rfl
  | cons b l ih =>
      rw [List.foldl_cons, List.foldl_cons, ih fun s c hc => hstep s c (List.mem_cons_of_mem b hc),
        hstep s b List.mem_cons_self]

/-- What every turn from `lo` on keeps, their run keeps. -/
theorem foldl_range'_inv
    {σ : Type} {step : σ → ℕ → σ} (Inv : ℕ → σ → Prop) {lo : ℕ} (n : ℕ) {s : σ}
    (hstep : ∀ t s, lo ≤ t → t < lo + n → Inv t s → Inv (t + 1) (step s t))
    (hs : Inv lo s) :
    Inv (lo + n) ((List.range' lo n).foldl step s) := by
  induction n with
  | zero =>
      exact hs
  | succ n ih =>
      rw [List.range'_concat, List.foldl_append, Nat.one_mul]
      exact hstep _ _ (Nat.le_add_right lo n) (Nat.add_lt_add_left (Nat.lt_succ_self n) lo)
        (ih fun t s hlo ht => hstep t s hlo (ht.trans (Nat.add_lt_add_left (Nat.lt_succ_self n) lo)))

/-- **Refinement.** Hash functions agree if a function between their states does. -/
theorem digest_eq
    {σ τ : Type} {H : BlockHash σ} {K : BlockHash τ} (φ : σ → τ) {message : List UInt8}
    (hsize : H.size = K.size)
    (hfield : H.field message.length = K.field message.length)
    (hinit : φ H.init = K.init)
    (hcompress : ∀ s b, b.length = H.size → φ (H.compress s b) = K.compress (φ s) b)
    (houtput : ∀ s, H.output s = K.output (φ s)) :
    H.digest message = K.digest message ∧ H.blocksOf message = K.blocksOf message := by
  have hblocks : H.blocksOf message = K.blocksOf message := by
    rw [blocksOf, blocksOf, hsize, hfield]
  refine ⟨?_, hblocks⟩
  rw [digest, houtput, digest, ← hblocks, ← hinit, foldl_map fun s b hb => hcompress s b ?_]
  exact length_of_mem_blocks hb

end BlockHash
