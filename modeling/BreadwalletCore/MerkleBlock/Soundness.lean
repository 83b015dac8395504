import BreadwalletCore.MerkleBlock.Completeness

/-!
# Merkle proof soundness

A block is accepted for the root of a list of transactions; are the hashes
extracted from it in that list?  The defence against CVE-2012-2459 sets
`hashIdx` to `SIZE_MAX` in the root computation only, and the zero it returns
is taken for a missing right branch.  Where a right branch really is missing
above the leaves, a peer can put a branch with two equal leaves there: the root
computation gives it up and duplicates the left branch as it should, while the
extraction reports the leaves.

The trees without such a place are those over `2 ^ k` or `2 ^ k - 1`
transactions.  There the two recursions stay in lockstep on every accepted
block.
-/

namespace BreadwalletCore

open MerkleTree (PartialTree subtree merkleRoot_eq_subtree join_eq_some_iff subtree_isSome
  subtree_ne subtree_ne_of_nodup_append subtree_succ_of_le)

namespace BRMerkleBlock

variable {H : Type} [DecidableEq H] [Zero H]
variable {combine : H → H → H}

section Lockstep

/-- The value of an expanded node that was not given up. -/
theorem eval_node_ne_zero
    {left right : PartialTree H}
    (hne : ((PartialTree.node left right).eval combine 0 false).1 ≠ 0) :
    let l := left.eval combine 0 false
    let r := right.eval combine 0 l.2
    l.1 ≠ r.1 ∧
      (PartialTree.node left right).eval combine 0 false =
        (combine l.1 (if r.1 = 0 then l.1 else r.1), r.2) := by
  intro l r
  rw [PartialTree.eval] at hne ⊢
  by_cases hcond : l.1 ≠ 0 ∧ l.1 ≠ r.1
  · exact ⟨hcond.2, if_pos hcond⟩
  · rw [if_neg hcond] at hne
    exact absurd rfl hne

/-- A tree of height zero that evaluates to zero has no flagged hash but zero,
and is not given up. -/
theorem matched_zero
    {t : PartialTree H}
    (hfits : t.Fits 0)
    (hval : (t.eval combine 0 false).1 = 0) :
    (t.eval combine 0 false).2 = false ∧ ∀ h ∈ t.matched, h = 0 := by
  cases t with
  | missing =>
      exact ⟨rfl, by simp [PartialTree.matched]⟩
  | leaf flag hash =>
      have hhash : hash = 0 := hval
      refine ⟨rfl, fun h hh => ?_⟩
      cases flag <;> simp_all [PartialTree.matched]
  | node left right =>
      exact hfits.elim

/-- The right branch of an expanded node is the one of the honest tree, or both
are missing. -/
theorem right_value
    {a r : H} {c : Option H}
    (hdiff : a ≠ r)
    (hne : ∀ b, c = some b → a ≠ b)
    (h : c.getD a = if r = 0 then a else r) :
    c = none ∧ r = 0 ∨ c = some r := by
  by_cases hr : r = 0
  · rw [if_pos hr] at h
    cases c with
    | none =>
        exact Or.inl ⟨rfl, hr⟩
    | some b =>
        exact absurd h.symm (hne b rfl)
  · rw [if_neg hr] at h
    cases c with
    | none =>
        exact absurd h hdiff
    | some b =>
        exact Or.inr (congrArg some h)

/-- A tree that evaluates to the node over `2 ^ k` or `2 ^ k - 1` leaves was not
given up on the way and flags only these leaves. -/
theorem matched_mem_of_eval
    (hinj : Function.Injective2 combine)
    (hzero : ∀ a b, combine a b ≠ 0)
    {k : ℕ} {t : PartialTree H} {l : List H}
    (hfits : t.Fits k)
    (hne : l ≠ [])
    (hshape : l.length = 2 ^ k ∨ l.length + 1 = 2 ^ k)
    (hnodup : l.Nodup)
    (hmem : 0 ∉ l)
    (hval : subtree combine k l = some (t.eval combine 0 false).1) :
    (t.eval combine 0 false).2 = false ∧ ∀ h ∈ t.matched, h ≠ 0 → h ∈ l := by
  induction k generalizing t l with
  | zero =>
      have hnz := subtree_ne hzero hmem hval
      cases t with
      | missing =>
          exact absurd rfl hnz
      | leaf flag hash =>
          refine ⟨rfl, fun h hh _ => ?_⟩
          have hhead : hash ∈ l := List.mem_of_mem_head? hval
          cases flag <;> simp_all [PartialTree.matched]
      | node left right =>
          exact hfits.elim
  | succ k ih =>
      have hnz := subtree_ne hzero hmem hval
      cases t with
      | missing =>
          exact absurd rfl hnz
      | leaf flag hash =>
          have hflag : flag = false := hfits.resolve_left (Nat.succ_ne_zero k)
          exact ⟨rfl, by simp [PartialTree.matched, hflag]⟩
      | node left right =>
          obtain ⟨hdiff, heval⟩ := eval_node_ne_zero hnz
          rw [heval] at hval ⊢
          obtain ⟨b, hb, hcomb⟩ := join_eq_some_iff.mp hval
          obtain ⟨hbl, hbr⟩ := hinj hcomb
          have hpow : 2 ^ (k + 1) = 2 * 2 ^ k := pow_succ' 2 k
          have hpos : 0 < 2 ^ k := Nat.two_pow_pos k
          have hsplit : (l.take (2 ^ k) ++ l.drop (2 ^ k)).Nodup := by
            rwa [List.take_append_drop]
          have htake : (l.take (2 ^ k)).length = 2 ^ k := by
            rw [List.length_take]
            omega
          have hleft := ih hfits.1 (by rw [← List.length_pos_iff]; omega) (Or.inl htake)
            (hsplit.sublist (List.sublist_append_left _ _))
            (fun h => hmem (List.mem_of_mem_take h)) (hbl ▸ hb)
          rw [hleft.1] at hdiff hbr ⊢
          rw [hbl] at hb hbr
          have hright : (right.eval combine 0 false).2 = false ∧
              ∀ h ∈ right.matched, h ≠ 0 → h ∈ l.drop (2 ^ k) := by
            rcases right_value hdiff (fun c hc => subtree_ne_of_nodup_append hinj hsplit hb hc) hbr
              with ⟨hnone, hrzero⟩ | hc
            · -- the right branch is missing, which happens at the leaves only
              obtain rfl : k = 0 := by
                have hdrop : l.drop (2 ^ k) = [] := by
                  by_contra hdrop
                  obtain ⟨c, hc⟩ := subtree_isSome combine (k := k) hdrop
                  rw [hnone] at hc
                  cases hc
                have hlen : l.length ≤ 2 ^ k := by
                  simpa using hdrop
                by_contra hk
                have htwo : 2 ^ 1 ≤ 2 ^ k := Nat.pow_le_pow_right (by omega) (by omega)
                omega
              obtain ⟨hkept, hmatched⟩ := matched_zero hfits.2 hrzero
              exact ⟨hkept, fun h hh hhne => absurd (hmatched h hh) hhne⟩
            · have hdrop : l.drop (2 ^ k) ≠ [] := by
                intro hdrop
                rw [hdrop, MerkleTree.subtree_nil] at hc
                cases hc
              exact ih hfits.2 hdrop (by rw [List.length_drop]; omega)
                (hsplit.sublist (List.sublist_append_right _ _))
                (fun h => hmem (List.mem_of_mem_drop h)) hc
          refine ⟨hright.1, fun h hh hhne => ?_⟩
          rcases List.mem_append.mp hh with hh | hh
          · exact List.mem_of_mem_take (hleft.2 h hh hhne)
          · exact List.mem_of_mem_drop (hright.2 h hh hhne)

end Lockstep

section Forgery

/-- A branch of height `k + 1` that ends in two equal flagged leaves. -/
def forgedBranch (x : H) : ℕ → PartialTree H
  | 0 => .node (.leaf true x) (.leaf true x)
  | k + 1 => .node (forgedBranch x k) .missing

/-- The tree over a list, expanded along its right edge down to the first place
above the leaves where the right branch is missing.  The forged branch is put
there. -/
def forgedTree (combine : H → H → H) (x : H) : ℕ → List H → PartialTree H
  | 0, _ => .missing
  | k + 1, l =>
      match subtree combine k (l.take (2 ^ k)) with
      | none => .missing
      | some hash =>
          .node (.leaf false hash)
            (if l.length ≤ 2 ^ k then forgedBranch x (k - 1)
            else forgedTree combine x k (l.drop (2 ^ k)))

omit [DecidableEq H] [Zero H] in
theorem forgedBranch_shape
    (x : H) (k : ℕ) :
    (forgedBranch x k).Fits (k + 1) ∧ (forgedBranch x k).Trailing ∧
      forgedBranch x k ≠ .missing ∧ x ∈ (forgedBranch x k).matched := by
  induction k with
  | zero =>
      simp [forgedBranch, PartialTree.Fits, PartialTree.Trailing, PartialTree.Full,
        PartialTree.matched]
  | succ k ih =>
      obtain ⟨hfits, htrail, hne, hmem⟩ := ih
      refine ⟨⟨hfits, trivial⟩, Or.inr ⟨hne, htrail, rfl⟩, ?_, ?_⟩
      · simp [forgedBranch]
      · exact List.mem_append_left _ hmem

/-- The forged branch is given up, with the value of a missing branch. -/
theorem eval_forgedBranch
    (x : H) (k : ℕ) :
    (forgedBranch x k).eval combine 0 false = (0, true) := by
  induction k with
  | zero =>
      simp [forgedBranch, PartialTree.eval]
  | succ k ih =>
      simp [forgedBranch, PartialTree.eval, ih]

/-- Unless there are `2 ^ k` or `2 ^ k - 1` leaves, the forged tree has the
value of the honest one and flags the forged hash. -/
theorem forgedTree_spec
    (hinj : Function.Injective2 combine)
    (hzero : ∀ a b, combine a b ≠ 0)
    (x : H)
    {k : ℕ} {l : List H}
    (hne : l ≠ [])
    (hlen : l.length ≤ 2 ^ k)
    (hshape : ¬ (l.length = 2 ^ k ∨ l.length + 1 = 2 ^ k))
    (hnodup : l.Nodup)
    (hmem : 0 ∉ l) :
    (forgedTree combine x k l).Fits k ∧ (forgedTree combine x k l).Trailing ∧
      x ∈ (forgedTree combine x k l).matched ∧
      some ((forgedTree combine x k l).eval combine 0 false).1 = subtree combine k l := by
  have hpos : 0 < l.length := List.length_pos_iff.mpr hne
  induction k generalizing l with
  | zero =>
      simp only [pow_zero] at hlen hshape
      omega
  | succ k ih =>
      have hpow : 2 ^ (k + 1) = 2 * 2 ^ k := pow_succ' 2 k
      have htake : l.take (2 ^ k) ≠ [] := by
        simpa using hne
      obtain ⟨a, ha⟩ := subtree_isSome combine (k := k) htake
      have hane : a ≠ 0 := subtree_ne hzero (fun h => hmem (List.mem_of_mem_take h)) ha
      rw [forgedTree, ha]
      by_cases hshort : l.length ≤ 2 ^ k
      · -- the branch is missing here, above the leaves
        obtain ⟨j, rfl⟩ : ∃ j, k = j + 1 := by
          cases k with
          | zero =>
              simp only [pow_zero, zero_add, pow_one] at hshort hshape
              omega
          | succ j =>
              exact ⟨j, rfl⟩
        obtain ⟨hfits, htrail, -, hx⟩ := forgedBranch_shape x j
        rw [List.take_of_length_le hshort] at ha
        simp only [if_pos hshort, Nat.add_sub_cancel]
        refine ⟨⟨PartialTree.fits_leaf.mpr (Or.inr rfl), hfits⟩, Or.inl ⟨trivial, htrail⟩, ?_, ?_⟩
        · exact List.mem_append_right _ hx
        · rw [subtree_succ_of_le combine hshort ha]
          simp [PartialTree.eval, eval_forgedBranch, hane]
      · have hdrop : l.drop (2 ^ k) ≠ [] := by
          simpa using hshort
        have hsplit : (l.take (2 ^ k) ++ l.drop (2 ^ k)).Nodup := by
          rwa [List.take_append_drop]
        obtain ⟨c, hc⟩ := subtree_isSome combine (k := k) hdrop
        have hcne : c ≠ 0 := subtree_ne hzero (fun h => hmem (List.mem_of_mem_drop h)) hc
        have hac : a ≠ c := subtree_ne_of_nodup_append hinj hsplit ha hc
        obtain ⟨hfits, htrail, hx, heval⟩ := ih hdrop (by rw [List.length_drop]; omega)
          (by rw [List.length_drop]; omega) (hsplit.sublist (List.sublist_append_right _ _))
          (fun h => hmem (List.mem_of_mem_drop h)) (List.length_pos_iff.mpr hdrop)
        rw [hc, Option.some.injEq] at heval
        simp only [if_neg hshort]
        refine ⟨⟨PartialTree.fits_leaf.mpr (Or.inr rfl), hfits⟩, Or.inl ⟨trivial, htrail⟩, ?_, ?_⟩
        · exact List.mem_append_right _ hx
        · rw [subtree, ha, hc]
          simp [PartialTree.eval, heval, hane, hcne, hac, MerkleTree.join]

/-- A block made of a written out tree, under a header that passes every
check. -/
def proofBlock
    (merkleRoot : H) (totalTx : UInt32) (t : PartialTree H)
    (hhashes : t.hashes.length < 2 ^ 64) (hflags : (LittleEndian.pack t.bits).length < 2 ^ 64) :
    BRMerkleBlock H where
  blockHash := 0
  merkleRoot := merkleRoot
  timestamp := 0
  target := maxProofOfWork
  totalTx := totalTx
  hashes := .ofList t.hashes hhashes
  flags := .ofList (LittleEndian.pack t.bits) hflags

omit [DecidableEq H] [Zero H] in
theorem proofBlock_headerValid
    (merkleRoot : H) (totalTx : UInt32) (t : PartialTree H)
    (hhashes : t.hashes.length < 2 ^ 64) (hflags : (LittleEndian.pack t.bits).length < 2 ^ 64) :
    (proofBlock merkleRoot totalTx t hhashes hflags).HeaderValid 0 where
  timestamp_le := Nat.zero_le _
  target_ne_zero := show targetMantissa maxProofOfWork ≠ 0 by decide
  target_nonneg := show targetMantissa maxProofOfWork < 2 ^ 23 by decide
  target_le := le_refl maxProofOfWork.toNat
  proofOfWork := Nat.zero_le _

/-- A written out tree is accepted when it evaluates to the root or no
transaction is announced, and its flagged hashes are extracted. -/
theorem exists_block_extracting
    {t : PartialTree H} {n : ℕ} {root : H}
    (hn : n < 2 ^ 31)
    (hfits : t.Fits (Nat.clog 2 n))
    (htrail : t.Trailing)
    (hroot : n = 0 ∨ (t.eval combine 0 false).1 = root) :
    ∃ block : BRMerkleBlock H, block.totalTx.toNat = n ∧ block.merkleRoot = root ∧
      block.HeaderValid 0 ∧ block.isValid combine 0 = .ok true ∧
      block.txHashes (some t.matched.length) = .ok (t.matched.length, t.matched) := by
  have hheight : Nat.clog 2 n < 32 := clog_lt_of_lt hn
  have hpow : 2 ^ (Nat.clog 2 n + 1) ≤ 2 ^ 32 := Nat.pow_le_pow_right (by omega) (by omega)
  have hhashes : t.hashes.length < 2 ^ 64 := by
    have hle := PartialTree.length_hashes_le hfits
    rw [pow_succ] at hpow
    omega
  have hflags : (LittleEndian.pack t.bits).length < 2 ^ 64 := by
    have hle := LittleEndian.length_pack_le t.bits
    have hlt := PartialTree.length_bits_lt hfits
    omega
  have htotal : (UInt32.ofNat n).toNat = n := UInt32.toNat_ofNat_of_lt (Nat.lt_trans hn (by decide))
  let block := proofBlock root (UInt32.ofNat n) t hhashes hflags
  have hlt : block.totalTx.toNat < 2 ^ 31 := by
    change (UInt32.ofNat n).toNat < 2 ^ 31
    omega
  have hread : block.readTree (LittleEndian.pack t.bits) t.hashes = t :=
    readTree_encoded (by change t.Fits (Nat.clog 2 (UInt32.ofNat n).toNat); rwa [htotal]) htrail
  have hcomputed : block.computedRoot combine = .ok (t.eval combine 0 false).1 := by
    rw [computedRoot_eq_eval combine rfl rfl hlt, hread]
  refine ⟨block, htotal, rfl, ?_, ?_, ?_⟩
  · exact proofBlock_headerValid root (UInt32.ofNat n) t hhashes hflags
  · obtain ⟨r, hvalid, hr⟩ := isValid_of_root combine hcomputed
      (show targetSize maxProofOfWork ≤ 31 by decide) 0
    have hmatch : block.MerkleMatches combine := by
      rcases hroot with hzero | hroot
      · refine Or.inl (UInt32.toNat_inj.mp ?_)
        change (UInt32.ofNat n).toNat = 0
        omega
      · exact Or.inr (by rw [hcomputed, hroot]; rfl)
    rw [hvalid, hr.mpr hmatch]
  · rw [txHashes_eq_matched rfl rfl hlt, hread]
    simp only [Option.getD_some, List.take_length]

end Forgery

section Members

/-- Every accepted block for these transactions gives only these back. -/
def ProvesOnlyMembers (combine : H → H → H) (ids : List H) : Prop :=
  ∀ (block : BRMerkleBlock H) (currentTime : UInt32),
    block.totalTx.toNat = ids.length →
    block.merkleRoot = (MerkleTree.merkleRoot combine ids).getD 0 →
    block.HeaderValid currentTime →
    block.isValid combine currentTime = .ok true →
    ∀ room n found, block.txHashes room = .ok (n, found) →
      ∀ h ∈ found, h ≠ 0 → h ∈ ids

/-- One less than a power of two has the height of that power, except at one. -/
theorem shape_at_clog
    {n : ℕ}
    (hn : 0 < n) :
    (∃ k, n = 2 ^ k ∨ n + 1 = 2 ^ k) ↔
      n = 2 ^ Nat.clog 2 n ∨ n + 1 = 2 ^ Nat.clog 2 n := by
  constructor
  · rintro ⟨k, hk | hk⟩
    · left
      rw [hk, Nat.clog_pow 2 k (by omega)]
    · rcases Nat.lt_or_ge n 2 with hsmall | hlarge
      · have hone : n = 1 := by
          omega
        subst hone
        left
        simp
      · right
        obtain ⟨j, rfl⟩ : ∃ j, k = j + 1 := by
          cases k with
          | zero =>
              simp only [pow_zero] at hk
              omega
          | succ j =>
              exact ⟨j, rfl⟩
        have hpow : 2 ^ (j + 1) = 2 * 2 ^ j := pow_succ' 2 j
        have hge : j < Nat.clog 2 n := (Nat.lt_clog_iff_pow_lt (by omega)).mpr (by omega)
        have hle : Nat.clog 2 n ≤ j + 1 := (Nat.clog_le_iff_le_pow (by omega)).mpr (by omega)
        have heq : Nat.clog 2 n = j + 1 := by
          omega
        rw [heq, hk]
  · intro h
    exact ⟨_, h⟩

/-- An accepted block with a root other than zero has its buffers. -/
theorem buffers_of_accepted
    {block : BRMerkleBlock H} {md : H}
    (hlt : block.totalTx.toNat < 2 ^ 31)
    (hroot : block.computedRoot combine = .ok md)
    (hmd : md ≠ 0) :
    ∃ hs fs, block.hashes.cells = some hs ∧ block.flags.cells = some fs := by
  obtain ⟨r, hr, hmd'⟩ := Machine.bind_eq_ok.mp hroot
  obtain rfl : r.1 = md := Except.ok.inj hmd'
  have hvis : block.visible ⟨0, 0⟩ := by
    by_contra hvis
    rw [rootR_not_visible hvis] at hr
    cases hr
    exact hmd rfl
  have hhash := ((visible_start block).mp hvis).2
  cases hfs : block.flags.cells with
  | none =>
      rw [rootR_null_flags hfs hvis] at hr
      cases hr
  | some fs =>
      cases hhs : block.hashes.cells with
      | some hs =>
          exact ⟨hs, fs, rfl, rfl⟩
      | none =>
          -- without hashes the recursion only descends and the root is zero
          obtain ⟨hset, hlen⟩ := flags_set_of_rootR_ok hhs hfs (height_of_lt hlt) hhash hr
          obtain ⟨s', hzero, -⟩ := rootR_descends combine hfs (height_of_lt hlt)
            (clog_lt_of_lt hlt) (s := ⟨0, 0⟩) hhash hset hlen
          rw [hzero] at hr
          cases hr
          exact absurd rfl hmd

/-- From `2 ^ 31` transactions on an accepted block has an unexpanded root, so
nothing is extracted. -/
theorem txHashes_nil_of_ge
    {block : BRMerkleBlock H} {md : H}
    (hge : 2 ^ 31 ≤ block.totalTx.toNat)
    (hroot : block.computedRoot combine = .ok md)
    (room : Option ℕ) :
    block.txHashes room = .ok (0, []) := by
  obtain ⟨r, hr, -⟩ := Machine.bind_eq_ok.mp hroot
  by_cases hvis : block.visible ⟨0, 0⟩
  · obtain ⟨flag, hflag, hcases⟩ := rootR_ok_cases hvis hr
    have hunset : flag = false := by
      cases flag with
      | false =>
          rfl
      | true =>
          rw [expands, ceilLog2_of_ge hge] at hcases
          obtain ⟨h, -⟩ | ⟨h, -⟩ := hcases <;> cases h
    subst hunset
    rw [txHashes, txHashesR_leaf hvis hflag rfl (if_neg (by simp))]
    cases room <;> rfl
  · rw [txHashes, txHashesR_not_visible hvis]
    cases room <;> rfl

section Ids

variable {ids : List H}

/-- Where there is another number of ids, a forged tree gives back a hash that
is none of them. -/
theorem ProvesOnlyMembers.shape
    (hsound : ProvesOnlyMembers combine ids)
    (hinj : Function.Injective2 combine)
    (hzero : ∀ a b, combine a b ≠ 0)
    (hnot : ∀ a b, combine a b ∉ ids)
    (hnodup : ids.Nodup)
    (hmem : 0 ∉ ids) :
    ids ≠ [] ∧
      (2 ^ 31 ≤ ids.length ∨ ∃ k, ids.length = 2 ^ k ∨ ids.length + 1 = 2 ^ k) := by
  have hforge : ∀ t : PartialTree H, ids.length < 2 ^ 31 →
      t.Fits (Nat.clog 2 ids.length) → t.Trailing → combine 0 0 ∈ t.matched →
        ¬ (ids.length = 0 ∨ (t.eval combine 0 false).1 =
          (MerkleTree.merkleRoot combine ids).getD 0) := by
    intro t hlt hfits htrail hx hval
    obtain ⟨block, htotal, hroot, hheader, hvalid, htx⟩ :=
      exists_block_extracting hlt hfits htrail hval
    exact hnot 0 0 (hsound block 0 htotal hroot hheader hvalid _ _ _ htx _ hx (hzero 0 0))
  have hne : ids ≠ [] := by
    rintro rfl
    exact hforge (.leaf true (combine 0 0)) (by simp) (by simp [PartialTree.Fits]) trivial
      (by simp [PartialTree.matched]) (Or.inl rfl)
  refine ⟨hne, ?_⟩
  by_contra hshape
  rw [not_or, not_le, shape_at_clog (List.length_pos_iff.mpr hne)] at hshape
  obtain ⟨hlt, hshape⟩ := hshape
  obtain ⟨hfits, htrail, hx, heval⟩ := forgedTree_spec hinj hzero (combine 0 0) hne
    (Nat.le_pow_clog (by omega) _) hshape hnodup hmem
  refine hforge _ hlt hfits htrail hx (Or.inr ?_)
  rw [merkleRoot_eq_subtree, ← heval, Option.getD_some]

variable {block : BRMerkleBlock H} {currentTime : UInt32} {a : H}

/-- An accepted block has computed the root of its transactions. -/
theorem computedRoot_of_accepted
    (hne : ids ≠ [])
    (htotal : block.totalTx.toNat = ids.length)
    (hroot : block.merkleRoot = a)
    (hvalid : block.isValid combine currentTime = .ok true) :
    block.computedRoot combine = .ok a := by
  obtain ⟨⟨md, hcomputed⟩, hsize⟩ := isValid_returns combine hvalid
  obtain ⟨r, hvalid', hr⟩ := isValid_of_root combine hcomputed hsize currentTime
  rw [hvalid] at hvalid'
  cases hvalid'
  rcases hr.mp rfl with hnone | hmatch
  · rw [hnone] at htotal
    exact absurd (List.length_eq_zero_iff.mp htotal.symm) hne
  · rw [hmatch, hroot]

/-- What is extracted from an accepted block over `2 ^ k` or `2 ^ k - 1` ids is
one of them. -/
theorem extracted_mem
    (hinj : Function.Injective2 combine)
    (hzero : ∀ a b, combine a b ≠ 0)
    (hnodup : ids.Nodup)
    (hmem : 0 ∉ ids)
    (hne : ids ≠ [])
    (hlt : ids.length < 2 ^ 31)
    (hshape : ids.length = 2 ^ Nat.clog 2 ids.length ∨
      ids.length + 1 = 2 ^ Nat.clog 2 ids.length)
    (htotal : block.totalTx.toNat = ids.length)
    (hroot : block.merkleRoot = (MerkleTree.merkleRoot combine ids).getD 0)
    (hvalid : block.isValid combine currentTime = .ok true)
    {room : Option ℕ} {n : ℕ} {found : List H}
    (htx : block.txHashes room = .ok (n, found)) :
    ∀ h ∈ found, h ≠ 0 → h ∈ ids := by
  obtain ⟨a, ha⟩ := subtree_isSome combine (k := Nat.clog 2 ids.length) hne
  rw [merkleRoot_eq_subtree, ha, Option.getD_some] at hroot
  have hcomputed := computedRoot_of_accepted hne htotal hroot hvalid
  obtain ⟨hs, fs, hhs, hfs⟩ := buffers_of_accepted (by omega) hcomputed (subtree_ne hzero hmem ha)
  have heval := computedRoot_eq_eval combine hhs hfs (by omega)
  rw [hcomputed] at heval
  have hread : (block.readTree fs hs).Fits (Nat.clog 2 ids.length) := by
    rw [readTree, htotal]
    exact PartialTree.walk_fits _ _ _
  obtain ⟨-, hmembers⟩ := matched_mem_of_eval hinj hzero hread hne hshape hnodup hmem
    (by rw [ha]; exact congrArg some (Except.ok.inj heval))
  intro h hh hhne
  refine hmembers h ?_ hhne
  rw [txHashes_eq_matched hhs hfs (by omega)] at htx
  cases room with
  | none =>
      cases htx
      exact absurd hh (by simp)
  | some m =>
      cases htx
      exact List.mem_of_mem_take hh

/-- **Soundness.**  With a hash of pairs that is injective, never zero and never
the id of a transaction, the accepted blocks for distinct non-zero ids give
only these back exactly when there are `2 ^ k` or `2 ^ k - 1` of them, or at
least `2 ^ 31`. -/
theorem provesOnlyMembers_iff
    (hinj : Function.Injective2 combine)
    (hzero : ∀ a b, combine a b ≠ 0)
    {ids : List H}
    (hnot : ∀ a b, combine a b ∉ ids)
    (hnodup : ids.Nodup)
    (hmem : 0 ∉ ids) :
    ProvesOnlyMembers combine ids ↔
      ids ≠ [] ∧
        (2 ^ 31 ≤ ids.length ∨ ∃ k, ids.length = 2 ^ k ∨ ids.length + 1 = 2 ^ k) := by
  constructor
  · intro hsound
    exact hsound.shape hinj hzero hnot hnodup hmem
  · rintro ⟨hne, hcases⟩ block currentTime htotal hroot - hvalid room n found htx
    rcases Nat.lt_or_ge ids.length (2 ^ 31) with hlt | hge
    · have hshape := (shape_at_clog (List.length_pos_iff.mpr hne)).mp
        (hcases.resolve_left (by omega))
      exact extracted_mem hinj hzero hnodup hmem hne hlt hshape htotal hroot hvalid htx
    · obtain ⟨⟨md, hcomputed⟩, -⟩ := isValid_returns combine hvalid
      rw [txHashes_nil_of_ge (by omega) hcomputed] at htx
      cases htx
      exact fun h hh => absurd hh (by simp)

end Ids

end Members

section Five

theorem oddPair_not_mem
    {l : List ℕ}
    (heven : ∀ n ∈ l, n % 2 = 0)
    (a b : ℕ) :
    oddPair a b ∉ l := by
  intro h
  have hmod := heven _ h
  rw [oddPair] at hmod
  omega

theorem provesOnlyMembers_four :
    ProvesOnlyMembers oddPair [2, 4, 6, 8] :=
  (provesOnlyMembers_iff oddPair_injective2 oddPair_ne_zero
    (oddPair_not_mem (by simp)) (by simp) (by simp)).mpr
    ⟨by simp, Or.inr ⟨2, Or.inl rfl⟩⟩

/-- A block over five transactions.  The flags are, from the root: expand, keep
the left half, expand the right half, keep its left branch, and expand its
missing right branch into two flagged leaves. -/
def forgedBlock : BRMerkleBlock ℕ where
  blockHash := 0
  merkleRoot := oddPair (oddPair (oddPair 2 4) (oddPair 6 8))
    (oddPair (oddPair 10 10) (oddPair 10 10))
  timestamp := 0
  target := maxProofOfWork
  totalTx := 5
  hashes := .ofList [oddPair (oddPair 2 4) (oddPair 6 8), oddPair 10 10, 12, 12] (by decide)
  flags := .ofList [0x75] (by decide)

/-- The block is accepted for the root of five transactions and proves a
sixth. -/
theorem forgedBlock_proves_outsider :
    forgedBlock.isValid oddPair 0 = .ok true ∧
      forgedBlock.txHashes (some 2) = .ok (2, [12, 12]) ∧
      ¬ ProvesOnlyMembers oddPair [2, 4, 6, 8, 10] := by
  have hvalid : forgedBlock.isValid oddPair 0 = .ok true := by
    decide
  have htx : forgedBlock.txHashes (some 2) = .ok (2, [12, 12]) := by
    decide
  have hroot : forgedBlock.merkleRoot =
      (MerkleTree.merkleRoot oddPair [2, 4, 6, 8, 10]).getD 0 := by
    rw [merkleRoot_eq_subtree]
    decide
  have hheader : forgedBlock.HeaderValid 0 :=
    ⟨by decide, by decide, by decide, by decide, by decide⟩
  refine ⟨hvalid, htx, fun hsound => ?_⟩
  have hmember := hsound forgedBlock 0 rfl hroot hheader hvalid _ _ _ htx 12 (by simp) (by simp)
  simp at hmember

end Five

end BRMerkleBlock

end BreadwalletCore
