import BreadwalletCore.MerkleBlock

/-!
# The two recursions in lockstep

`rootR` and `txHashesR` are two recursions over the same bytes.  Here both are
related to one reading of them, `PartialTree.walk`: `txHashesR` collects the
flagged leaves of the tree that was read, and `rootR` evaluates that tree until
it gives up.  After that the cursors part, since only `rootR` moves `hashIdx`
to `SIZE_MAX`.
-/

namespace BreadwalletCore

open MerkleTree (PartialTree)

section CeilLog2

theorem ceilLog2Loop_nat
    {fuel n : ℕ}
    (hn : n < 2 ^ fuel)
    (hfuel : 0 < fuel)
    (r : ℕ) :
    ceilLog2Loop fuel n r = some (r + Nat.log 2 n) := by
  induction fuel generalizing n r with
  | zero =>
      omega
  | succ fuel ih =>
      rw [ceilLog2Loop]
      by_cases hhalf : n / 2 = 0
      · have hlog : Nat.log 2 n = 0 := Nat.log_of_lt (by omega)
        have hint : (n : ℤ) / 2 = 0 := by
          omega
        simp [hint, hlog]
      · have hint : (n : ℤ) / 2 = ((n / 2 : ℕ) : ℤ) := by
          omega
        have hlog : Nat.log 2 n = Nat.log 2 (n / 2) + 1 :=
          Nat.log_of_one_lt_of_le (by omega) (by omega)
        have hne : ((n / 2 : ℕ) : ℤ) ≠ 0 := by
          exact_mod_cast hhalf
        have hlt : n / 2 < 2 ^ fuel := by
          rw [pow_succ] at hn
          omega
        have hpos : 0 < fuel := by
          rcases Nat.eq_zero_or_pos fuel with hzero | hpos
          · rw [hzero] at hlt
            omega
          · exact hpos
        rw [hint, if_pos hne, ih hlt hpos, hlog, Nat.add_right_comm, Nat.add_assoc]

theorem ceilLog2Loop_neg
    (fuel : ℕ)
    {x : ℤ}
    (hx : x < 0)
    (r : ℕ) :
    ceilLog2Loop fuel x r = none := by
  induction fuel generalizing x r with
  | zero =>
      rfl
  | succ fuel ih =>
      have hhalf : x / 2 < 0 := by
        omega
      rw [ceilLog2Loop, if_pos hhalf.ne, ih hhalf]

theorem clog_eq_log_add
    (n : ℕ) :
    Nat.clog 2 n = (if n &&& (n - 1) ≠ 0 then 1 else 0) + Nat.log 2 n := by
  by_cases hn : n = 0
  · simp [hn]
  by_cases hpow : n &&& (n - 1) = 0
  · obtain ⟨k, rfl⟩ := (Nat.and_sub_one_eq_zero_iff_isPowerOfTwo hn).mp hpow
    simp [hpow, Nat.clog_pow, Nat.log_pow]
  · have hlow : 2 ^ Nat.log 2 n < n := by
      refine lt_of_le_of_ne (Nat.pow_log_le_self 2 hn) (fun heq => hpow ?_)
      exact (Nat.and_sub_one_eq_zero_iff_isPowerOfTwo hn).mpr ⟨_, heq.symm⟩
    have hhigh : n < 2 ^ (Nat.log 2 n + 1) := Nat.lt_pow_succ_log_self (by omega) n
    have hge := (Nat.lt_clog_iff_pow_lt (by omega)).mpr hlow
    have hle := (Nat.clog_le_iff_le_pow (b := 2) (by omega)).mpr hhigh.le
    rw [if_pos hpow]
    omega

/-- Below `2 ^ 31` the height is the rounded up logarithm. -/
theorem ceilLog2_of_lt
    {x : UInt32}
    (hx : x.toNat < 2 ^ 31) :
    ceilLog2 x = some (Nat.clog 2 x.toNat) := by
  have hint : x.toBitVec.toInt = (x.toNat : ℤ) := by
    rw [BitVec.toInt_eq_toNat_of_lt]
    · rfl
    · change 2 * x.toNat < 2 ^ 32
      omega
  have hand : x &&& (x - 1) ≠ 0 ↔ x.toNat &&& (x.toNat - 1) ≠ 0 := by
    rw [not_iff_not, ← UInt32.toNat_inj, UInt32.toNat_and]
    by_cases hzero : x = 0
    · simp [hzero]
    · have hpos : 0 < x.toNat := by
        refine Nat.pos_of_ne_zero (fun h => hzero ?_)
        exact UInt32.toNat_inj.mp h
      have hsub : (x - 1).toNat = x.toNat - 1 := by
        rw [UInt32.toNat_sub_of_le]
        · rfl
        · exact UInt32.le_iff_toNat_le.mpr hpos
      rw [hsub]
      rfl
  rw [ceilLog2, hint, ceilLog2Loop_nat (by omega) (by omega), clog_eq_log_add]
  simp only [hand]

/-- From `2 ^ 31` on the converted argument is negative. -/
theorem ceilLog2_of_ge
    {x : UInt32}
    (hx : 2 ^ 31 ≤ x.toNat) :
    ceilLog2 x = none := by
  refine ceilLog2Loop_neg 32 ?_ _
  have hlt := x.toNat_lt
  have hcond : x.toBitVec.toInt = (x.toNat : ℤ) - 2 ^ 32 := by
    rw [BitVec.toInt_eq_toNat_cond, if_neg]
    · rfl
    · change ¬ 2 * x.toNat < 2 ^ 32
      omega
  omega

theorem clog_lt_of_lt
    {n : ℕ}
    (hn : n < 2 ^ 31) :
    Nat.clog 2 n < 32 := by
  have h := (Nat.clog_le_iff_le_pow (b := 2) (by omega)).mpr hn.le
  omega

end CeilLog2

namespace BRMerkleBlock

theorem flag_test
    (byte : UInt8)
    {j : ℕ}
    (hj : j < 8) :
    byte &&& ((1 : UInt8) <<< UInt8.ofNat j) ≠ 0 ↔ byte.toNat.testBit j = true := by
  have hmask : ((1 : UInt8) <<< UInt8.ofNat j).toNat = 2 ^ j := by
    have hlt : 2 ^ j < 2 ^ 8 := Nat.pow_lt_pow_right (by omega) hj
    have hmod : j % 2 ^ 8 % 8 = j := by
      omega
    rw [UInt8.toNat_shiftLeft, UInt8.toNat_ofNat', hmod, Nat.shiftLeft_eq, UInt8.toNat_one, one_mul,
      Nat.mod_eq_of_lt hlt]
  rw [ne_eq, ← UInt8.toNat_inj, UInt8.toNat_and, hmask, Nat.and_two_pow]
  cases byte.toNat.testBit j <;> simp

section Allocated

variable {H : Type} {block : BRMerkleBlock H} {hs : List H} {fs : List UInt8}

theorem visible_iff
    (hhs : block.hashes.cells = some hs)
    (hfs : block.flags.cells = some fs)
    (s : Cursor) :
    block.visible s ↔
      s.flagIdx < (LittleEndian.bits fs).length ∧ s.hashIdx < hs.length := by
  rw [visible, ← block.hashes.length_eq hs hhs, ← block.flags.length_eq fs hfs,
    LittleEndian.length_bits]
  omega

theorem read_hash
    (hhs : block.hashes.cells = some hs)
    {i : ℕ}
    (hi : i < hs.length) :
    block.hashes.read i = .ok hs[i] := by
  simp [HeapArray.read, hhs, hi]
  rfl

theorem readFlag_eq
    (hfs : block.flags.cells = some fs)
    {i : ℕ}
    (hi : i < (LittleEndian.bits fs).length) :
    block.readFlag i = .ok (LittleEndian.bits fs)[i] := by
  have hbit := LittleEndian.getElem?_bits fs i
  rw [List.getElem?_eq_getElem hi] at hbit
  obtain ⟨byte, hbyte, hval⟩ := Option.map_eq_some_iff.mp hbit.symm
  have hread : block.flags.read (i / 8) = .ok byte := by
    simp [HeapArray.read, hfs, hbyte]
    rfl
  have hflag := flag_test byte (Nat.mod_lt i (by omega : 0 < 8))
  rw [readFlag, hread, ← hval]
  change Except.ok _ = Except.ok _
  congr 1
  rw [Bool.eq_iff_iff, decide_eq_true_iff]
  exact hflag

theorem expands_eq
    {k depth : ℕ}
    (hheight : ceilLog2 block.totalTx = some (depth + k))
    (flag : Bool) :
    block.expands flag depth = .ok (flag && decide (0 < k)) := by
  rw [expands, hheight]
  cases flag with
  | false =>
      rfl
  | true =>
      change Except.ok _ = Except.ok _
      congr 1
      rw [Bool.eq_iff_iff]
      simp

section Steps

variable [DecidableEq H] [Zero H]
variable {combine : H → H → H} {fuel depth : ℕ} {s : Cursor} {flag : Bool}

theorem rootR_not_visible
    (hvis : ¬ block.visible s) :
    block.rootR combine (fuel + 1) depth s = .ok (0, s) := by
  rw [rootR, if_neg hvis]
  rfl

theorem rootR_leaf
    {hash : H}
    (hvis : block.visible s)
    (hflag : block.readFlag s.flagIdx = .ok flag)
    (hexpand : block.expands flag depth = .ok false)
    (hread : block.hashes.read s.hashIdx = .ok hash) :
    block.rootR combine (fuel + 1) depth s = .ok (hash, ⟨s.hashIdx + 1, s.flagIdx + 1⟩) := by
  rw [rootR, if_pos hvis, hflag, Machine.ok_bind, hexpand, Machine.ok_bind]
  simp only [hread, Machine.ok_bind]
  rfl

theorem rootR_node
    {left right : H} {s₁ s₂ : Cursor}
    (hvis : block.visible s)
    (hflag : block.readFlag s.flagIdx = .ok flag)
    (hexpand : block.expands flag depth = .ok true)
    (hleft : block.rootR combine fuel (depth + 1) ⟨s.hashIdx, s.flagIdx + 1⟩ = .ok (left, s₁))
    (hright : block.rootR combine fuel (depth + 1) s₁ = .ok (right, s₂)) :
    block.rootR combine (fuel + 1) depth s =
      .ok (if left ≠ 0 ∧ left ≠ right then
          (combine left (if right = 0 then left else right), s₂)
        else (0, ⟨sizeMax, s₂.flagIdx⟩)) := by
  rw [rootR, if_pos hvis, hflag, Machine.ok_bind, hexpand, Machine.ok_bind]
  simp only [if_true, hleft, Machine.ok_bind, hright]
  split <;> rfl

end Steps

/-- The cursor after a call: given up, or behind what the walk read. -/
def CursorAfter
    (fs : List UInt8) (hs : List H) (rest : List Bool × List H) (stopped : Bool) (s : Cursor) :
    Prop :=
  if stopped then s.hashIdx = sizeMax
  else (LittleEndian.bits fs).drop s.flagIdx = rest.1 ∧ hs.drop s.hashIdx = rest.2

theorem not_visible_of_sizeMax
    {s : Cursor}
    (hs : s.hashIdx = sizeMax) :
    ¬ block.visible s := by
  intro hvis
  have hcount := block.hashes.count_lt
  have hlt := hvis.2
  rw [hs, sizeMax] at hlt
  omega

theorem walk_of_not_visible
    (hhs : block.hashes.cells = some hs)
    (hfs : block.flags.cells = some fs)
    {s : Cursor}
    (hvis : ¬ block.visible s)
    (k : ℕ) :
    PartialTree.walk k ((LittleEndian.bits fs).drop s.flagIdx) (hs.drop s.hashIdx) =
      (.missing, (LittleEndian.bits fs).drop s.flagIdx, hs.drop s.hashIdx) := by
  rw [visible_iff hhs hfs, not_and_or] at hvis
  rcases hvis with hflag | hhash
  · rw [List.drop_of_length_le (by omega), PartialTree.walk_nil_bits]
  · rw [List.drop_of_length_le (l := hs) (by omega), PartialTree.walk_nil_hashes]

/-- What both recursions meet at a cursor, with the tree that is read there. -/
inductive WalkStep (block : BRMerkleBlock H) (fs : List UInt8) (hs : List H) (depth : ℕ)
    (s : Cursor) : ℕ → PartialTree H → List Bool × List H → Prop
  /-- the flags or the hashes have run out -/
  | missing {k : ℕ}
      (hvis : ¬ block.visible s) :
      WalkStep block fs hs depth s k .missing
        ((LittleEndian.bits fs).drop s.flagIdx, hs.drop s.hashIdx)
  /-- a hash that is not expanded -/
  | leaf {k : ℕ} {flag : Bool} {hash : H}
      (hvis : block.visible s)
      (hflag : block.readFlag s.flagIdx = .ok flag)
      (hexpand : block.expands flag depth = .ok false)
      (hread : block.hashes.read s.hashIdx = .ok hash) :
      WalkStep block fs hs depth s k (.leaf flag hash)
        ((LittleEndian.bits fs).drop (s.flagIdx + 1), hs.drop (s.hashIdx + 1))
  /-- two branches -/
  | node {k : ℕ} {left right : PartialTree H} {rest₁ rest : List Bool × List H}
      (hvis : block.visible s)
      (hflag : block.readFlag s.flagIdx = .ok true)
      (hexpand : block.expands true depth = .ok true)
      (hbelow : ceilLog2 block.totalTx = some (depth + 1 + k))
      (hleft : PartialTree.walk k ((LittleEndian.bits fs).drop (s.flagIdx + 1))
        (hs.drop s.hashIdx) = (left, rest₁))
      (hright : PartialTree.walk k rest₁.1 rest₁.2 = (right, rest)) :
      WalkStep block fs hs depth s (k + 1) (.node left right) rest

theorem walkStep_of_walk
    (hhs : block.hashes.cells = some hs)
    (hfs : block.flags.cells = some fs)
    {k depth : ℕ}
    (hheight : ceilLog2 block.totalTx = some (depth + k))
    {s : Cursor} {t : PartialTree H} {rest : List Bool × List H}
    (hwalk : PartialTree.walk k ((LittleEndian.bits fs).drop s.flagIdx) (hs.drop s.hashIdx) =
      (t, rest)) :
    WalkStep block fs hs depth s k t rest := by
  by_cases hvis : block.visible s
  · obtain ⟨hf, hh⟩ := (visible_iff hhs hfs s).mp hvis
    have hflag := readFlag_eq hfs hf
    have hexpand := expands_eq hheight (LittleEndian.bits fs)[s.flagIdx]
    rw [List.drop_eq_getElem_cons hf, List.drop_eq_getElem_cons hh] at hwalk
    cases k with
    | zero =>
        rw [decide_eq_false (by omega), Bool.and_false] at hexpand
        cases hwalk
        exact .leaf hvis hflag hexpand (read_hash hhs hh)
    | succ k =>
        rw [decide_eq_true (by omega), Bool.and_true] at hexpand
        rw [PartialTree.walk, ← List.drop_eq_getElem_cons hh] at hwalk
        cases hbit : (LittleEndian.bits fs)[s.flagIdx] with
        | false =>
            rw [hbit] at hflag hexpand hwalk
            cases hwalk
            exact .leaf hvis hflag hexpand (read_hash hhs hh)
        | true =>
            rw [hbit] at hflag hexpand hwalk
            cases hwalk
            refine .node hvis hflag hexpand ?_ rfl rfl
            rw [hheight]
            congr 1
            omega
  · rw [walk_of_not_visible hhs hfs hvis] at hwalk
    cases hwalk
    exact .missing hvis

/-- `rootR` evaluates the tree that is read at its cursor. -/
theorem rootR_walk
    [DecidableEq H] [Zero H]
    (combine : H → H → H)
    (hhs : block.hashes.cells = some hs)
    (hfs : block.flags.cells = some fs)
    {k fuel depth : ℕ}
    (hheight : ceilLog2 block.totalTx = some (depth + k))
    (hfuel : k < fuel)
    {s : Cursor} {t : PartialTree H} {rest : List Bool × List H}
    (hwalk : PartialTree.walk k ((LittleEndian.bits fs).drop s.flagIdx) (hs.drop s.hashIdx) =
      (t, rest)) :
    ∃ s', block.rootR combine fuel depth s = .ok ((t.eval combine 0 false).1, s') ∧
      CursorAfter fs hs rest (t.eval combine 0 false).2 s' := by
  induction fuel generalizing k depth s t rest with
  | zero =>
      omega
  | succ fuel ih =>
      cases walkStep_of_walk hhs hfs hheight hwalk with
      | missing hvis =>
          exact ⟨s, rootR_not_visible hvis, rfl, rfl⟩
      | leaf hvis hflag hexpand hread =>
          exact ⟨_, rootR_leaf hvis hflag hexpand hread, rfl, rfl⟩
      | @node k left right rest₁ _ hvis hflag hexpand hbelow hleft hright =>
          obtain ⟨s₁, hroot₁, hafter₁⟩ :=
            ih hbelow (by omega) (s := ⟨s.hashIdx, s.flagIdx + 1⟩) hleft
          -- the right branch is read from where the left one ended, or not at all
          obtain ⟨s₂, hroot₂, hafter₂⟩ : ∃ s₂,
              block.rootR combine fuel (depth + 1) s₁ =
                .ok ((right.eval combine 0 (left.eval combine 0 false).2).1, s₂) ∧
              CursorAfter fs hs rest (right.eval combine 0 (left.eval combine 0 false).2).2
                s₂ := by
            cases hstop : (left.eval combine 0 false).2 with
            | true =>
                rw [hstop] at hafter₁
                obtain ⟨fuel, rfl⟩ : ∃ n, fuel = n + 1 := ⟨fuel - 1, by omega⟩
                rw [PartialTree.eval_true]
                exact ⟨s₁, rootR_not_visible (not_visible_of_sizeMax hafter₁), hafter₁⟩
            | false =>
                rw [hstop] at hafter₁
                obtain ⟨hbits, hhashes⟩ := hafter₁
                refine ih hbelow (by omega) ?_
                rw [hbits, hhashes]
                exact hright
          rw [rootR_node hvis hflag hexpand hroot₁ hroot₂, PartialTree.eval]
          split
          · exact ⟨_, rfl, hafter₂⟩
          · exact ⟨_, rfl, rfl⟩

section Collect

variable {cap fuel depth : ℕ} {s s₁ s₂ : TxHashesState H} {flag : Bool}

/-- The hashes `found` were counted and written as far as there was room. -/
def Collected (cap : ℕ) (found : List H) (s s' : TxHashesState H) : Prop :=
  s'.idx = s.idx + (found.take (cap - s.idx)).length ∧
    s'.txHashes = s.txHashes.map (fun written => written ++ found.take (cap - s.idx))

theorem Collected.nil
    (h₁ : s₁.idx = s.idx)
    (h₂ : s₁.txHashes = s.txHashes) :
    Collected cap [] s s₁ := by
  refine ⟨by simpa using h₁, ?_⟩
  rw [h₂]
  cases s.txHashes <;> simp

theorem Collected.append
    {found₁ found₂ : List H}
    (h₁ : Collected cap found₁ s s₁)
    (h₂ : Collected cap found₂ s₁ s₂) :
    Collected cap (found₁ ++ found₂) s s₂ := by
  have hroom : found₂.take (cap - s₁.idx) = found₂.take (cap - s.idx - found₁.length) := by
    have hlen := h₁.1
    rw [List.length_take] at hlen
    congr 1
    omega
  have htake : (found₁ ++ found₂).take (cap - s.idx) =
      found₁.take (cap - s.idx) ++ found₂.take (cap - s₁.idx) := by
    rw [List.take_append, hroom]
  constructor
  · rw [htake, List.length_append, h₂.1, h₁.1]
    omega
  · rw [htake, h₂.2, h₁.2, Option.map_map]
    congr 1
    funext written
    simp

/-- A leaf that is flagged is counted, and written when there is a buffer. -/
theorem takeLeaf_collected
    (cap : ℕ) (flag : Bool)
    {hash : H}
    (hread : block.hashes.read s.cursor.hashIdx = .ok hash) :
    ∃ s', block.takeLeaf cap flag s = .ok s' ∧ s'.cursor = s.cursor ∧
      Collected cap (if flag then [hash] else []) s s' := by
  cases flag with
  | false =>
      exact ⟨s, by simp [takeLeaf]; rfl, rfl, Collected.nil rfl rfl⟩
  | true =>
      by_cases hroom : s.idx < cap
      · have htake : [hash].take (cap - s.idx) = [hash] :=
          List.take_of_length_le (by simp; omega)
        cases hbuf : s.txHashes with
        | none =>
            refine ⟨{ s with idx := s.idx + 1 }, ?_, rfl, ?_, ?_⟩
            · simp [takeLeaf, hroom, hbuf]
              rfl
            · simp [htake]
            · simp [hbuf]
        | some written =>
            refine ⟨{ s with idx := s.idx + 1, txHashes := some (written ++ [hash]) }, ?_, rfl,
              ?_, ?_⟩
            · simp only [takeLeaf, hroom, hbuf, and_self, if_true, hread, Machine.ok_bind]
              rfl
            · simp [htake]
            · simp [hbuf, htake]
      · have htake : [hash].take (cap - s.idx) = [] := by
          rw [Nat.sub_eq_zero_of_le (by omega), List.take_zero]
        refine ⟨s, by simp [takeLeaf, hroom]; rfl, rfl, by simp [htake], ?_⟩
        cases s.txHashes <;> simp [htake]

theorem txHashesR_not_visible
    (hvis : ¬ block.visible s.cursor) :
    block.txHashesR cap (fuel + 1) depth s = .ok s := by
  rw [txHashesR, if_neg hvis]
  rfl

theorem txHashesR_leaf
    (hvis : block.visible s.cursor)
    (hflag : block.readFlag s.cursor.flagIdx = .ok flag)
    (hexpand : block.expands flag depth = .ok false)
    (htake : block.takeLeaf cap flag { s with cursor.flagIdx := s.cursor.flagIdx + 1 } = .ok s₁) :
    block.txHashesR cap (fuel + 1) depth s =
      .ok { s₁ with cursor.hashIdx := s₁.cursor.hashIdx + 1 } := by
  rw [txHashesR, if_pos hvis, hflag, Machine.ok_bind, hexpand, Machine.ok_bind]
  simp only [htake, Machine.ok_bind]
  rfl

theorem txHashesR_node
    (hvis : block.visible s.cursor)
    (hflag : block.readFlag s.cursor.flagIdx = .ok flag)
    (hexpand : block.expands flag depth = .ok true)
    (hleft : block.txHashesR cap fuel (depth + 1)
      { s with cursor.flagIdx := s.cursor.flagIdx + 1 } = .ok s₁)
    (hright : block.txHashesR cap fuel (depth + 1) s₁ = .ok s₂) :
    block.txHashesR cap (fuel + 1) depth s = .ok s₂ := by
  rw [txHashesR, if_pos hvis, hflag, Machine.ok_bind, hexpand, Machine.ok_bind]
  simp only [if_true, hleft, Machine.ok_bind, hright]

/-- `txHashesR` collects the flagged leaves of the tree that is read at its
cursor. -/
theorem txHashesR_walk
    (cap : ℕ)
    (hhs : block.hashes.cells = some hs)
    (hfs : block.flags.cells = some fs)
    {k : ℕ}
    (hheight : ceilLog2 block.totalTx = some (depth + k))
    (hfuel : k < fuel)
    {t : PartialTree H} {rest : List Bool × List H}
    (hwalk : PartialTree.walk k ((LittleEndian.bits fs).drop s.cursor.flagIdx)
      (hs.drop s.cursor.hashIdx) = (t, rest)) :
    ∃ s', block.txHashesR cap fuel depth s = .ok s' ∧
      CursorAfter fs hs rest false s'.cursor ∧ Collected cap t.matched s s' := by
  induction fuel generalizing k depth s t rest with
  | zero =>
      omega
  | succ fuel ih =>
      cases walkStep_of_walk hhs hfs hheight hwalk with
      | missing hvis =>
          exact ⟨s, txHashesR_not_visible hvis, ⟨rfl, rfl⟩, Collected.nil rfl rfl⟩
      | @leaf k flag _ hvis hflag hexpand hread =>
          obtain ⟨s', htake, hcursor, hcoll⟩ := takeLeaf_collected cap flag
            (s := { s with cursor.flagIdx := s.cursor.flagIdx + 1 }) hread
          refine ⟨_, txHashesR_leaf hvis hflag hexpand htake, ?_, hcoll⟩
          simp [CursorAfter, hcursor]
      | node hvis hflag hexpand hbelow hleft hright =>
          obtain ⟨s₁, htx₁, ⟨hbits, hhashes⟩, hcoll₁⟩ := ih hbelow (by omega)
            (s := { s with cursor.flagIdx := s.cursor.flagIdx + 1 }) hleft
          rw [← hbits, ← hhashes] at hright
          obtain ⟨s₂, htx₂, hafter₂, hcoll₂⟩ := ih hbelow (by omega) hright
          exact ⟨s₂, txHashesR_node hvis hflag hexpand htx₁ htx₂, hafter₂,
            Collected.append hcoll₁ hcoll₂⟩

end Collect

/-- The tree that both functions read from a block. -/
def readTree (block : BRMerkleBlock H) (fs : List UInt8) (hs : List H) : PartialTree H :=
  (PartialTree.walk (Nat.clog 2 block.totalTx.toNat) (LittleEndian.bits fs) hs).1

/-- A tree that was written out is the one that is read; the bits that pad the
last flag byte find no hash left. -/
theorem readTree_encoded
    {t : PartialTree H}
    (hfits : t.Fits (Nat.clog 2 block.totalTx.toNat))
    (htrail : t.Trailing) :
    block.readTree (LittleEndian.pack t.bits) t.hashes = t := by
  obtain ⟨pad, hpad⟩ := LittleEndian.bits_pack t.bits
  have hwalk := PartialTree.walk_encoded hfits htrail (List.replicate pad false) [] (Or.inr rfl)
  rw [List.append_nil, ← hpad] at hwalk
  rw [readTree, hwalk]

theorem height_of_lt
    (hlt : block.totalTx.toNat < 2 ^ 31) :
    ceilLog2 block.totalTx = some (0 + Nat.clog 2 block.totalTx.toNat) := by
  rw [Nat.zero_add]
  exact ceilLog2_of_lt hlt

/-- The computed root is the value of the tree that is read. -/
theorem computedRoot_eq_eval
    [DecidableEq H] [Zero H]
    (combine : H → H → H)
    (hhs : block.hashes.cells = some hs)
    (hfs : block.flags.cells = some fs)
    (hlt : block.totalTx.toNat < 2 ^ 31) :
    block.computedRoot combine = .ok ((block.readTree fs hs).eval combine 0 false).1 := by
  obtain ⟨s', hroot, -⟩ := rootR_walk combine hhs hfs (height_of_lt hlt)
    (clog_lt_of_lt hlt) (s := ⟨0, 0⟩) rfl
  rw [computedRoot, hroot]
  rfl

/-- The hashes written are the flagged leaves of the tree that is read, as many
as there is room for; without a buffer they are only counted. -/
theorem txHashes_eq_matched
    (hhs : block.hashes.cells = some hs)
    (hfs : block.flags.cells = some fs)
    (hlt : block.totalTx.toNat < 2 ^ 31)
    (room : Option ℕ) :
    block.txHashes room =
      .ok (((block.readTree fs hs).matched.take (room.getD sizeMax)).length,
        match room with
        | some n => (block.readTree fs hs).matched.take n
        | none => []) := by
  obtain ⟨s', htx, -, hidx, hbuf⟩ := txHashesR_walk (room.getD sizeMax) hhs hfs
    (height_of_lt hlt) (clog_lt_of_lt hlt)
    (s := ⟨⟨0, 0⟩, 0, room.map (fun _ => [])⟩) rfl
  rw [Nat.zero_add] at hidx
  rw [txHashes, htx, Machine.ok_bind, hidx, hbuf]
  cases room with
  | none =>
      rfl
  | some n =>
      rfl

end Allocated

end BRMerkleBlock

end BreadwalletCore
