import BreadwalletCore.MerkleBlock.Acceptance

/-!
# Merkle proof completeness

The encoding described in the comment of `BRMerkleBlock.c`: the tree is
traversed depth first, every visited node leaves a bit that says whether it is
above a matched transaction, and a hash where it is not expanded further.  A
block in this encoding is accepted, and the matched transactions are extracted
in block order.
-/

namespace BreadwalletCore

open MerkleTree (PartialTree merkleRoot_eq_subtree)

namespace BRMerkleBlock

variable {H : Type}
variable (combine : H → H → H) (isMatched : H → Bool)

/-- The visited part of the tree over the transactions of a block. -/
def bip37Tree (ids : List H) : PartialTree H :=
  PartialTree.prune combine isMatched (Nat.clog 2 ids.length) ids

/-- The hashes of the encoding. -/
def bip37Hashes (ids : List H) : List H :=
  (bip37Tree combine isMatched ids).hashes

/-- The flag bytes of the encoding. -/
def bip37Flags (ids : List H) : List UInt8 :=
  LittleEndian.pack (bip37Tree combine isMatched ids).bits

/-- The block carries the encoding for these transactions. -/
structure Encodes (block : BRMerkleBlock H) (ids : List H) : Prop where
  totalTx_eq : block.totalTx.toNat = ids.length
  merkleRoot_eq : MerkleTree.merkleRoot combine ids = some block.merkleRoot
  hashes_eq : block.hashes.cells = some (bip37Hashes combine isMatched ids)
  flags_eq : block.flags.cells = some (bip37Flags combine isMatched ids)

variable {combine isMatched}

theorem Encodes.readTree_eq
    {block : BRMerkleBlock H} {ids : List H}
    (henc : block.Encodes combine isMatched ids) :
    block.readTree (bip37Flags combine isMatched ids) (bip37Hashes combine isMatched ids) =
      bip37Tree combine isMatched ids := by
  refine readTree_encoded ?_ ?_
  · rw [henc.totalTx_eq]
    exact PartialTree.prune_fits _ _
  · exact PartialTree.prune_trailing (Nat.le_pow_clog (by omega) _)

/-- **Completeness.**  The encoding of at most `2 ^ 30` distinct non-zero ids
computes to the root of the block, is accepted, and gives back the matched ids
in order; without a buffer they are counted. -/
theorem encoding_accepted_and_extracted
    [DecidableEq H] [Zero H]
    (hinj : Function.Injective2 combine)
    (hzero : ∀ a b, combine a b ≠ 0)
    {ids : List H}
    (hlen : ids.length ≤ 2 ^ 30)
    (hnodup : ids.Nodup)
    (hmem : 0 ∉ ids)
    {block : BRMerkleBlock H}
    (henc : block.Encodes combine isMatched ids) :
    block.computedRoot combine = .ok block.merkleRoot ∧
      (targetSize block.target ≤ 31 →
        ∀ currentTime, block.isValid combine currentTime = .ok true) ∧
      (∀ room, (ids.filter isMatched).length ≤ room →
        block.txHashes (some room) =
          .ok ((ids.filter isMatched).length, ids.filter isMatched)) ∧
      block.txHashes none = .ok ((ids.filter isMatched).length, []) := by
  have hlt : block.totalTx.toNat < 2 ^ 31 := by
    rw [henc.totalTx_eq]
    omega
  have hmatched : (bip37Tree combine isMatched ids).matched = ids.filter isMatched :=
    PartialTree.matched_prune (Nat.le_pow_clog (by omega) _)
  have hroot : block.computedRoot combine = .ok block.merkleRoot := by
    have hnode := henc.merkleRoot_eq
    rw [merkleRoot_eq_subtree] at hnode
    rw [computedRoot_eq_eval combine henc.hashes_eq henc.flags_eq hlt, henc.readTree_eq,
      bip37Tree, PartialTree.eval_prune hinj hzero hnodup hmem hnode]
  have hfilter : (ids.filter isMatched).length ≤ 2 ^ 30 :=
    le_trans (List.length_filter_le _ _) hlen
  have hextract := txHashes_eq_matched henc.hashes_eq henc.flags_eq hlt
  rw [henc.readTree_eq, hmatched] at hextract
  refine ⟨hroot, ?_, ?_, ?_⟩
  · intro hsize currentTime
    obtain ⟨r, hvalid, hr⟩ := isValid_of_root combine hroot hsize currentTime
    rw [hvalid, hr.mpr (Or.inr hroot)]
  · intro room hroom
    rw [hextract]
    simp only [Option.getD_some, List.take_of_length_le hroom]
  · have hmax : (ids.filter isMatched).length ≤ sizeMax := by
      rw [sizeMax]
      omega
    rw [hextract]
    simp only [Option.getD_none, List.take_of_length_le hmax]

/-- An injective stand-in for `BRSHA256_2` whose values are odd. -/
def oddPair (a b : ℕ) : ℕ :=
  2 * Nat.pair a b + 1

theorem oddPair_injective2 :
    Function.Injective2 oddPair := by
  intro a b c d h
  have hpair : Nat.pair a c = Nat.pair b d := by
    rw [oddPair, oddPair] at h
    omega
  exact Nat.pair_eq_pair.mp hpair

theorem oddPair_ne_zero
    (a b : ℕ) :
    oddPair a b ≠ 0 := by
  rw [oddPair]
  omega

/-- The example of the source's comment: three transactions, the second of them
matched. -/
def commentBlock : BRMerkleBlock ℕ where
  blockHash := 0
  merkleRoot := oddPair (oddPair 2 4) (oddPair 6 6)
  timestamp := 0
  target := maxProofOfWork
  totalTx := 3
  hashes := .ofList (bip37Hashes oddPair (· == 4) [2, 4, 6]) (by decide)
  flags := .ofList (bip37Flags oddPair (· == 4) [2, 4, 6])
    (lt_of_le_of_lt (LittleEndian.length_pack_le _) (by decide))

example :
    (bip37Tree oddPair (· == 4) [2, 4, 6]).bits = [true, true, false, true, false] ∧
      (bip37Tree oddPair (· == 4) [2, 4, 6]).hashes = [2, 4, oddPair 6 6] := by
  decide

theorem commentBlock_encodes :
    commentBlock.Encodes oddPair (· == 4) [2, 4, 6] where
  totalTx_eq := rfl
  merkleRoot_eq := by
    rw [merkleRoot_eq_subtree]
    decide
  hashes_eq := rfl
  flags_eq := rfl

theorem commentBlock_extracted :
    commentBlock.computedRoot oddPair = .ok commentBlock.merkleRoot ∧
      commentBlock.isValid oddPair 0 = .ok true ∧
      commentBlock.txHashes (some 1) = .ok (1, [4]) ∧
      commentBlock.txHashes none = .ok (1, []) := by
  have h := encoding_accepted_and_extracted oddPair_injective2 oddPair_ne_zero
    (show [2, 4, 6].length ≤ 2 ^ 30 by decide) (by decide) (by decide) commentBlock_encodes
  exact ⟨h.1, h.2.1 (by decide) 0, h.2.2.1 1 (by decide), h.2.2.2⟩

end BRMerkleBlock

end BreadwalletCore
