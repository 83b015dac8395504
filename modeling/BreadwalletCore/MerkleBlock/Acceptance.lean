import BreadwalletCore.MerkleBlock.Walk

/-!
# Block acceptance

`BRMerkleBlockIsValid` is documented as "true if merkle tree and timestamp are
valid, and proof-of-work matches the stated difficulty target".  `Acceptable`
spells that out.  In the source the checks of the timestamp, of the range of
the target and of the hash are commented out, so the function answers for the
merkle tree alone; and it does not always answer: the target is expanded into
32 bytes without a bound on its size, and the root computation reads through
`NULL` or does not end on some blocks.  The main theorem says exactly on which
blocks the code meets its description.
-/

namespace BreadwalletCore

open MerkleTree (PartialTree)

namespace BRMerkleBlock

variable {H : Type} {block : BRMerkleBlock H}

section Header

/-- The number that a compact target stands for. -/
def expandedTarget (target : UInt32) : ℕ :=
  if 3 < targetSize target then targetMantissa target * 256 ^ (targetSize target - 3)
  else targetMantissa target / 256 ^ (3 - targetSize target)

/-- The documented conditions on the header.  The sign bit of the compact
format is the top bit of its 24 bit mantissa. -/
structure HeaderValid (block : BRMerkleBlock H) (currentTime : UInt32) : Prop where
  timestamp_le : block.timestamp.toNat ≤ currentTime.toNat + blockMaxTimeDrift
  target_ne_zero : targetMantissa block.target ≠ 0
  target_nonneg : targetMantissa block.target < 2 ^ 23
  target_le : block.target.toNat ≤ maxProofOfWork.toNat
  proofOfWork : block.blockHash.toNat ≤ expandedTarget block.target

theorem targetMantissa_lt
    (target : UInt32) :
    targetMantissa target < 2 ^ 24 := by
  rw [targetMantissa, UInt32.toNat_and]
  exact lt_of_le_of_lt Nat.and_le_right (by decide)

/-- A write into zero bytes leaves the written number at its offset. -/
theorem setLE_zeros
    {off x : ℕ}
    (hoff : off + 4 ≤ 32)
    (hx : x < 2 ^ 32) :
    ∃ t, setLE (List.replicate 32 0) off x = .ok t ∧
      LittleEndian.value t = x * 256 ^ off := by
  refine ⟨_, if_pos (by simpa using hoff), ?_⟩
  rw [List.take_replicate, List.drop_replicate, LittleEndian.value_append,
    LittleEndian.value_append, LittleEndian.value_bytes (by norm_num; omega),
    LittleEndian.value_replicate_zero, LittleEndian.value_replicate_zero, List.length_replicate,
    Nat.min_eq_left (by omega)]
  ring

/-- Up to size 31 the bytes the loop compares are those of the expanded
target; a larger size writes behind them. -/
theorem expandTarget_eq
    (target : UInt32) :
    if targetSize target ≤ 31 then
      ∃ t, expandTarget target = .ok t ∧ LittleEndian.value t = expandedTarget target
    else expandTarget target = .error .invalidWrite := by
  have hmantissa := targetMantissa_lt target
  rw [expandTarget, expandedTarget]
  by_cases hsize : 3 < targetSize target
  · rw [if_pos hsize, if_pos hsize]
    split
    · exact setLE_zeros (by omega) (by omega)
    · rw [setLE, if_neg (by simp; omega)]
      rfl
  · rw [if_neg hsize, if_neg hsize, if_pos (by omega)]
    have hshift : targetMantissa target >>> ((3 - targetSize target) * 8) =
        targetMantissa target / 256 ^ (3 - targetSize target) := by
      rw [Nat.shiftRight_eq_div_pow, Nat.mul_comm, pow_mul]
      norm_num
    have hle := Nat.div_le_self (targetMantissa target) (256 ^ (3 - targetSize target))
    rw [hshift]
    obtain ⟨t, ht, hvalue⟩ :=
      setLE_zeros (x := targetMantissa target / 256 ^ (3 - targetSize target))
        (show 0 + 4 ≤ 32 by omega) (by omega)
    exact ⟨t, ht, by simpa using hvalue⟩

theorem powLoop_eq
    (blockHash : UInt256) (t : List UInt8) (n : ℕ) (r : Bool) :
    powLoop blockHash t n r = r := by
  induction n with
  | zero =>
      rfl
  | succ n ih =>
      rw [powLoop, ih]
      split <;> simp

end Header

section RootReturns

theorem visible_of_flag
    {fs : List UInt8} {s : Cursor}
    (hfs : block.flags.cells = some fs)
    (hhash : s.hashIdx < block.hashes.count) :
    block.visible s ↔ s.flagIdx < (LittleEndian.bits fs).length := by
  rw [visible, ← block.flags.length_eq fs hfs, LittleEndian.length_bits]
  omega

theorem visible_start
    (block : BRMerkleBlock H) :
    block.visible ⟨0, 0⟩ ↔ 0 < block.flags.count ∧ 0 < block.hashes.count := by
  rw [visible, Nat.zero_div]

theorem read_null
    (hhs : block.hashes.cells = none)
    (i : ℕ) :
    block.hashes.read i = .error .invalidRead := by
  simp [HeapArray.read, hhs]
  rfl

variable [DecidableEq H] [Zero H]
variable {combine : H → H → H}

theorem rootR_null_flags
    {fuel depth : ℕ} {s : Cursor}
    (hfs : block.flags.cells = none)
    (hvis : block.visible s) :
    block.rootR combine (fuel + 1) depth s = .error .invalidRead := by
  have hread : block.readFlag s.flagIdx = .error .invalidRead := by
    simp [readFlag, HeapArray.read, hfs]
    rfl
  rw [rootR, if_pos hvis, hread]
  rfl

/-- What a returned root says about the position it started from. -/
theorem rootR_ok_cases
    {fuel depth : ℕ} {s : Cursor} {r : H × Cursor}
    (hvis : block.visible s)
    (hroot : block.rootR combine (fuel + 1) depth s = .ok r) :
    ∃ flag, block.readFlag s.flagIdx = .ok flag ∧
      ((block.expands flag depth = .ok false ∧ ∃ hash, block.hashes.read s.hashIdx = .ok hash) ∨
        (block.expands flag depth = .ok true ∧
          ∃ l, block.rootR combine fuel (depth + 1) ⟨s.hashIdx, s.flagIdx + 1⟩ = .ok l)) := by
  rw [rootR, if_pos hvis] at hroot
  obtain ⟨flag, hflag, hroot⟩ := Machine.bind_eq_ok.mp hroot
  obtain ⟨expand, hexpand, hroot⟩ := Machine.bind_eq_ok.mp hroot
  refine ⟨flag, hflag, ?_⟩
  cases expand with
  | false =>
      obtain ⟨hash, hhash, -⟩ := Machine.bind_eq_ok.mp hroot
      exact Or.inl ⟨hexpand, hash, hhash⟩
  | true =>
      obtain ⟨l, hl, -⟩ := Machine.bind_eq_ok.mp hroot
      exact Or.inr ⟨hexpand, l, hl⟩

/-- No hash is read when the recursion only descends: every flag is set and
the flags end above the leaves. -/
theorem rootR_descends
    (combine : H → H → H)
    {fs : List UInt8}
    (hfs : block.flags.cells = some fs)
    {k fuel depth : ℕ}
    (hheight : ceilLog2 block.totalTx = some (depth + k))
    (hfuel : k < fuel)
    {s : Cursor}
    (hhash : s.hashIdx < block.hashes.count)
    (hset : ∀ b ∈ (LittleEndian.bits fs).drop s.flagIdx, b = true)
    (hlen : ((LittleEndian.bits fs).drop s.flagIdx).length ≤ k) :
    ∃ s', block.rootR combine fuel depth s = .ok (0, s') ∧ ¬ block.visible s' := by
  induction k generalizing fuel depth s with
  | zero =>
      obtain ⟨fuel, rfl⟩ : ∃ n, fuel = n + 1 := ⟨fuel - 1, by omega⟩
      have hvis : ¬ block.visible s := by
        rw [visible_of_flag hfs hhash]
        rw [List.length_drop] at hlen
        omega
      exact ⟨s, rootR_not_visible hvis, hvis⟩
  | succ k ih =>
      obtain ⟨fuel, rfl⟩ : ∃ n, fuel = n + 1 := ⟨fuel - 1, by omega⟩
      by_cases hvis : block.visible s
      · have hf := (visible_of_flag hfs hhash).mp hvis
        rw [List.drop_eq_getElem_cons hf] at hset hlen
        have hflag : (LittleEndian.bits fs)[s.flagIdx] = true := hset _ List.mem_cons_self
        have hexpand := expands_eq hheight (LittleEndian.bits fs)[s.flagIdx]
        rw [hflag, decide_eq_true (by omega), Bool.and_true] at hexpand
        have hbelow : ceilLog2 block.totalTx = some (depth + 1 + k) := by
          rw [hheight]
          congr 1
          omega
        obtain ⟨s₁, hleft, hvis₁⟩ := ih hbelow (show k < fuel by omega)
          (s := ⟨s.hashIdx, s.flagIdx + 1⟩) hhash
          (fun b hb => hset b (List.mem_cons_of_mem _ hb)) (Nat.le_of_succ_le_succ hlen)
        have hright : block.rootR combine fuel (depth + 1) s₁ = .ok (0, s₁) := by
          obtain ⟨fuel, rfl⟩ : ∃ n, fuel = n + 1 := ⟨fuel - 1, by omega⟩
          exact rootR_not_visible hvis₁
        refine ⟨⟨sizeMax, s₁.flagIdx⟩, ?_, not_visible_of_sizeMax rfl⟩
        rw [rootR_node hvis (hflag ▸ readFlag_eq hfs hf) hexpand hleft hright]
        simp
      · exact ⟨s, rootR_not_visible hvis, hvis⟩

theorem flags_set_of_rootR_ok
    {fs : List UInt8}
    (hhs : block.hashes.cells = none)
    (hfs : block.flags.cells = some fs)
    {k fuel depth : ℕ}
    (hheight : ceilLog2 block.totalTx = some (depth + k))
    {s : Cursor}
    (hhash : s.hashIdx < block.hashes.count)
    {r : H × Cursor}
    (hroot : block.rootR combine fuel depth s = .ok r) :
    (∀ b ∈ (LittleEndian.bits fs).drop s.flagIdx, b = true) ∧
      ((LittleEndian.bits fs).drop s.flagIdx).length ≤ k := by
  induction k generalizing fuel depth s r with
  | zero =>
      cases fuel with
      | zero =>
          cases hroot
      | succ fuel =>
          have hvis : ¬ block.visible s := by
            intro hvis
            obtain ⟨flag, -, ⟨-, hash, hread⟩ | ⟨hexpand, -⟩⟩ := rootR_ok_cases hvis hroot
            · rw [read_null hhs] at hread
              cases hread
            · rw [expands_eq hheight, decide_eq_false (by omega), Bool.and_false] at hexpand
              cases hexpand
          rw [visible_of_flag hfs hhash] at hvis
          rw [List.drop_of_length_le (by omega)]
          simp
  | succ k ih =>
      cases fuel with
      | zero =>
          cases hroot
      | succ fuel =>
          by_cases hvis : block.visible s
          · have hf := (visible_of_flag hfs hhash).mp hvis
            obtain ⟨flag, hflag, ⟨-, hash, hread⟩ | ⟨hexpand, l, hl⟩⟩ := rootR_ok_cases hvis hroot
            · rw [read_null hhs] at hread
              cases hread
            · have hbelow : ceilLog2 block.totalTx = some (depth + 1 + k) := by
                rw [hheight]
                congr 1
                omega
              obtain ⟨hset, hlen⟩ := ih hbelow (s := ⟨s.hashIdx, s.flagIdx + 1⟩) hhash hl
              rw [readFlag_eq hfs hf] at hflag
              cases hflag
              rw [expands_eq hheight, decide_eq_true (by omega), Bool.and_true] at hexpand
              rw [List.drop_eq_getElem_cons hf]
              constructor
              · intro b hb
                rcases List.mem_cons.mp hb with rfl | hb
                · exact Except.ok.inj hexpand
                · exact hset b hb
              · exact Nat.succ_le_succ hlen
          · rw [visible_of_flag hfs hhash] at hvis
            rw [List.drop_of_length_le (by omega)]
            simp

/-- The blocks on which the root computation returns: there is nothing to read;
or the flags are there, and either the root is not expanded and its hash is
there, or the number of transactions is below `2 ^ 31` and the hashes are there
or never reached. -/
def RootReturns (block : BRMerkleBlock H) : Prop :=
  block.flags.count = 0 ∨ block.hashes.count = 0 ∨
    ∃ fs, block.flags.cells = some fs ∧
      (((LittleEndian.bits fs).head? = some false ∧ block.hashes.cells.isSome) ∨
        (block.totalTx.toNat < 2 ^ 31 ∧
          (block.hashes.cells.isSome ∨
            ((∀ b ∈ LittleEndian.bits fs, b = true) ∧
              8 * block.flags.count ≤ Nat.clog 2 block.totalTx.toNat))))

theorem computedRoot_of_rootReturns
    (combine : H → H → H)
    (hreturns : block.RootReturns) :
    ∃ md, block.computedRoot combine = .ok md := by
  suffices h : ∃ r, block.rootR combine 32 0 ⟨0, 0⟩ = .ok r by
    obtain ⟨r, hr⟩ := h
    exact ⟨r.1, by rw [computedRoot, hr]; rfl⟩
  by_cases hvis : block.visible ⟨0, 0⟩
  · obtain ⟨hflags, hhashes⟩ := (visible_start block).mp hvis
    rcases hreturns with hzero | hzero | ⟨fs, hfs, hcases⟩
    · omega
    · omega
    · have hf := (visible_of_flag hfs hhashes (s := ⟨0, 0⟩)).mp hvis
      rcases hcases with ⟨hroot, hsome⟩ | ⟨hlt, hsome | ⟨hset, hlen⟩⟩
      · obtain ⟨hs, hhs⟩ := Option.isSome_iff_exists.mp hsome
        rw [List.head?_eq_getElem?, List.getElem?_eq_getElem hf] at hroot
        have hflag := readFlag_eq hfs hf
        rw [Option.some.inj hroot] at hflag
        have hh : 0 < hs.length := by
          rw [block.hashes.length_eq hs hhs]
          exact hhashes
        exact ⟨_, rootR_leaf hvis hflag rfl (read_hash hhs hh)⟩
      · obtain ⟨hs, hhs⟩ := Option.isSome_iff_exists.mp hsome
        obtain ⟨s', hr, -⟩ := rootR_walk combine hhs hfs (height_of_lt hlt) (clog_lt_of_lt hlt)
          (s := ⟨0, 0⟩) rfl
        exact ⟨_, hr⟩
      · obtain ⟨s', hr, -⟩ := rootR_descends combine hfs (height_of_lt hlt)
          (clog_lt_of_lt hlt) (s := ⟨0, 0⟩) hhashes hset
          (by
            rw [List.drop_zero, LittleEndian.length_bits, block.flags.length_eq fs hfs]
            exact hlen)
        exact ⟨_, hr⟩
  · exact ⟨_, rootR_not_visible hvis⟩

theorem rootReturns_of_computedRoot
    {md : H}
    (hroot : block.computedRoot combine = .ok md) :
    block.RootReturns := by
  obtain ⟨r, hr, -⟩ := Machine.bind_eq_ok.mp hroot
  by_cases hvis : block.visible ⟨0, 0⟩
  · obtain ⟨hflags, hhashes⟩ := (visible_start block).mp hvis
    cases hfs : block.flags.cells with
    | none =>
        rw [rootR_null_flags hfs hvis] at hr
        cases hr
    | some fs =>
        have hf := (visible_of_flag hfs hhashes (s := ⟨0, 0⟩)).mp hvis
        refine Or.inr (Or.inr ⟨fs, hfs, ?_⟩)
        by_cases hlt : block.totalTx.toNat < 2 ^ 31
        · refine Or.inr ⟨hlt, ?_⟩
          cases hhs : block.hashes.cells with
          | some hs =>
              exact Or.inl rfl
          | none =>
              have hset := flags_set_of_rootR_ok hhs hfs (height_of_lt hlt) hhashes hr
              rw [List.drop_zero, LittleEndian.length_bits, block.flags.length_eq fs hfs] at hset
              exact Or.inr hset
        · -- from `2 ^ 31` on a flagged root does not return
          obtain ⟨flag, hflag, hcases⟩ := rootR_ok_cases hvis hr
          rw [readFlag_eq hfs hf] at hflag
          cases flag with
          | true =>
              rw [expands, ceilLog2_of_ge (by omega)] at hcases
              obtain ⟨h, -⟩ | ⟨h, -⟩ := hcases <;> cases h
          | false =>
              obtain ⟨-, hash, hread⟩ | ⟨h, -⟩ := hcases
              · refine Or.inl ⟨?_, ?_⟩
                · rw [List.head?_eq_getElem?, List.getElem?_eq_getElem hf]
                  exact congrArg some (Except.ok.inj hflag)
                · cases hhs : block.hashes.cells with
                  | some hs =>
                      rfl
                  | none =>
                      rw [read_null hhs] at hread
                      cases hread
              · cases h
  · rw [visible_start] at hvis
    have hzero : block.flags.count = 0 ∨ block.hashes.count = 0 := by
      omega
    exact hzero.imp_right Or.inl

end RootReturns

section Acceptable

variable [DecidableEq H] [Zero H]
variable (combine : H → H → H)

/-- The condition on the merkle tree. -/
def MerkleMatches (block : BRMerkleBlock H) : Prop :=
  block.totalTx = 0 ∨ block.computedRoot combine = .ok block.merkleRoot

/-- What `BRMerkleBlockIsValid` is documented to decide. -/
def Acceptable (block : BRMerkleBlock H) (currentTime : UInt32) : Prop :=
  block.MerkleMatches combine ∧ block.HeaderValid currentTime

/-- What the function decides when it returns. -/
theorem isValid_of_root
    {md : H}
    (hroot : block.computedRoot combine = .ok md)
    (hsize : targetSize block.target ≤ 31)
    (currentTime : UInt32) :
    ∃ r, block.isValid combine currentTime = .ok r ∧ (r = true ↔ block.MerkleMatches combine) := by
  have hexpand := expandTarget_eq block.target
  rw [if_pos hsize] at hexpand
  obtain ⟨t, ht, -⟩ := hexpand
  refine ⟨!decide (0 < block.totalTx ∧ md ≠ block.merkleRoot), ?_, ?_⟩
  · rw [isValid, hroot, Machine.ok_bind, ht, Machine.ok_bind, powLoop_eq]
    rfl
  · have hpos : 0 < block.totalTx ↔ ¬ block.totalTx = 0 := by
      rw [UInt32.lt_iff_toNat_lt, ← UInt32.toNat_inj]
      exact Nat.pos_iff_ne_zero
    rw [MerkleMatches, hroot, Bool.not_eq_true', decide_eq_false_iff_not, hpos, Except.ok.injEq]
    tauto

theorem isValid_returns
    {currentTime : UInt32} {r : Bool}
    (hvalid : block.isValid combine currentTime = .ok r) :
    (∃ md, block.computedRoot combine = .ok md) ∧ targetSize block.target ≤ 31 := by
  obtain ⟨md, hroot, hvalid⟩ := Machine.bind_eq_ok.mp hvalid
  obtain ⟨t, ht, -⟩ := Machine.bind_eq_ok.mp hvalid
  refine ⟨⟨md, hroot⟩, ?_⟩
  by_contra hsize
  have hexpand := expandTarget_eq block.target
  rw [if_neg hsize, ht] at hexpand
  cases hexpand

/-- **Block acceptance.**  The function returns the documented answer exactly
on the blocks on which it returns at all and which either fail the merkle test
or have a valid header. -/
theorem isValid_decides_acceptable_iff
    (block : BRMerkleBlock H) (currentTime : UInt32) :
    (∃ r, block.isValid combine currentTime = .ok r ∧
        (r = true ↔ block.Acceptable combine currentTime)) ↔
      block.RootReturns ∧ targetSize block.target ≤ 31 ∧
        (block.MerkleMatches combine → block.HeaderValid currentTime) := by
  constructor
  · rintro ⟨r, hvalid, hr⟩
    obtain ⟨⟨md, hroot⟩, hsize⟩ := isValid_returns combine hvalid
    obtain ⟨r', hvalid', hr'⟩ := isValid_of_root combine hroot hsize currentTime
    rw [hvalid] at hvalid'
    cases hvalid'
    refine ⟨rootReturns_of_computedRoot hroot, hsize, fun hmatch => ?_⟩
    exact (hr.mp (hr'.mpr hmatch)).2
  · rintro ⟨hreturns, hsize, hheader⟩
    obtain ⟨md, hroot⟩ := computedRoot_of_rootReturns combine hreturns
    obtain ⟨r, hvalid, hr⟩ := isValid_of_root combine hroot hsize currentTime
    refine ⟨r, hvalid, hr.trans ?_⟩
    exact ⟨fun hmatch => ⟨hmatch, hheader hmatch⟩, And.left⟩

end Acceptable

/-- A bare header from the future whose hash is above its target. -/
def futureHeader : BRMerkleBlock UInt256 where
  blockHash := BitVec.allOnes 256
  merkleRoot := 0
  timestamp := 0xffffffff
  target := maxProofOfWork
  totalTx := 0
  hashes := .ofList [] (by decide)
  flags := .ofList [] (by decide)

/-- The header is accepted although neither its timestamp nor its proof of work
is valid.  It has no hashes, so `combine` does not matter. -/
theorem futureHeader_accepted :
    futureHeader.isValid (fun a _ => a) 0 = .ok true ∧
      ¬ futureHeader.Acceptable (fun a _ => a) 0 ∧
      ¬ ∃ r, futureHeader.isValid (fun a _ => a) 0 = .ok r ∧
        (r = true ↔ futureHeader.Acceptable (fun a _ => a) 0) := by
  have hvalid : futureHeader.isValid (fun a _ => a) 0 = .ok true := by
    decide
  have hnot : ¬ futureHeader.Acceptable (fun a _ => a) 0 := by
    rintro ⟨-, hheader⟩
    exact absurd hheader.timestamp_le (by decide)
  refine ⟨hvalid, hnot, ?_⟩
  rintro ⟨r, hr, hiff⟩
  rw [hvalid] at hr
  cases hr
  exact hnot (hiff.mp rfl)

end BRMerkleBlock

end BreadwalletCore
