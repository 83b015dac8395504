import BreadwalletCore.MerkleBlock.Walk

/-!
# Termination of the recursions

The calls that `_BRMerkleBlockRootR` and `_BRMerkleBlockTxHashesR` make, with
their depths.  Every call that does anything reads one flag, so there are at
most as many of these as there are flag bits; and a call is only made below the
depth `_ceil_log2(totalTx)`.

`_ceil_log2` takes an `int`.  For a number of transactions from `2 ^ 31` on it
shifts a negative number to the right until it is zero, that is for ever.
-/

namespace BreadwalletCore

namespace BRMerkleBlock

/-- A call of one of the recursions; `visits` tells whether flags and hashes
were left for it. -/
structure Call where
  depth : ℕ
  visits : Bool
deriving DecidableEq, Repr

section Calls

variable {H σ : Type}

/-- The calls of a recursion with the local state `σ`.  `skip` steps over a
flag, and `after` is the state that the recursion returns with. -/
def calls (block : BRMerkleBlock H) (cursor : σ → Cursor) (skip : σ → σ)
    (after : ℕ → ℕ → σ → Option σ) : ℕ → ℕ → σ → List Call
  | 0, _, _ => []
  | fuel + 1, depth, s =>
      if block.visible (cursor s) then
        match block.readFlag (cursor s).flagIdx >>= (block.expands · depth) with
        | .ok true =>
            ⟨depth, true⟩ :: (calls block cursor skip after fuel (depth + 1) (skip s) ++
              match after fuel (depth + 1) (skip s) with
              | some s' => calls block cursor skip after fuel (depth + 1) s'
              | none => [])
        | _ => [⟨depth, true⟩]
      else [⟨depth, false⟩]

/-- The rules that both recursions follow. -/
structure Recursion (block : BRMerkleBlock H) (cursor : σ → Cursor) (skip : σ → σ)
    (after : ℕ → ℕ → σ → Option σ) : Prop where
  flagIdx_skip : ∀ s, (cursor (skip s)).flagIdx = (cursor s).flagIdx + 1
  /-- nothing is left -/
  missing : ∀ {fuel depth s}, ¬ block.visible (cursor s) → after (fuel + 1) depth s = some s
  /-- a hash that is not expanded -/
  leaf : ∀ {fuel depth s flag}, block.visible (cursor s) →
    block.readFlag (cursor s).flagIdx = .ok flag → block.expands flag depth = .ok false →
    ∃ s', after (fuel + 1) depth s = some s' ∧
      (cursor s').flagIdx = (cursor s).flagIdx + 1
  /-- two branches -/
  node : ∀ {fuel depth s flag s₁ s₂}, block.visible (cursor s) →
    block.readFlag (cursor s).flagIdx = .ok flag → block.expands flag depth = .ok true →
    after fuel (depth + 1) (skip s) = some s₁ → after fuel (depth + 1) s₁ = some s₂ →
    ∃ s', after (fuel + 1) depth s = some s' ∧ (cursor s').flagIdx = (cursor s₂).flagIdx

variable {block : BRMerkleBlock H} {cursor : σ → Cursor} {skip : σ → σ}
  {after : ℕ → ℕ → σ → Option σ} {fs : List UInt8}

/-- The number of calls that read a flag. -/
def visited (l : List Call) : ℕ :=
  l.countP (·.visits)

/-- A recursion returns, reads a flag in each call that does anything, and goes
no deeper than the height of the tree. -/
theorem Recursion.returns
    (hrec : Recursion block cursor skip after)
    (hfs : block.flags.cells = some fs)
    {height depth fuel : ℕ}
    (hheight : ceilLog2 block.totalTx = some height)
    (hdepth : depth ≤ height)
    (hfuel : height < depth + fuel)
    {s : σ}
    (hs : (cursor s).flagIdx ≤ 8 * block.flags.count) :
    ∃ s', after fuel depth s = some s' ∧ (cursor s').flagIdx ≤ 8 * block.flags.count ∧
      (cursor s').flagIdx =
        (cursor s).flagIdx + visited (calls block cursor skip after fuel depth s) ∧
      ∀ c ∈ calls block cursor skip after fuel depth s, c.depth ≤ height := by
  induction fuel generalizing depth s with
  | zero =>
      omega
  | succ fuel ih =>
      rw [calls]
      by_cases hvis : block.visible (cursor s)
      · rw [if_pos hvis]
        have hlt := hvis.1
        have hbits : (cursor s).flagIdx < (LittleEndian.bits fs).length := by
          rw [LittleEndian.length_bits, block.flags.length_eq fs hfs]
          omega
        have hflag := readFlag_eq hfs hbits
        generalize (LittleEndian.bits fs)[(cursor s).flagIdx] = flag at hflag
        have hexpand : block.expands flag depth = .ok (flag && decide (0 < height - depth)) :=
          expands_eq (by rw [hheight, Nat.add_sub_cancel' hdepth]) flag
        rw [hflag, Machine.ok_bind]
        cases hmore : (flag && decide (0 < height - depth)) with
        | false =>
            rw [hmore] at hexpand
            obtain ⟨s', hafter, hidx⟩ : ∃ s', after (fuel + 1) depth s = some s' ∧
                (cursor s').flagIdx = (cursor s).flagIdx + 1 := hrec.leaf hvis hflag hexpand
            rw [hexpand]
            refine ⟨s', hafter, by omega, hidx, ?_⟩
            intro c hc
            rw [List.mem_singleton.mp hc]
            exact hdepth
        | true =>
            rw [hmore] at hexpand
            have hbelow : depth + 1 ≤ height := by
              rw [Bool.and_eq_true, decide_eq_true_eq] at hmore
              omega
            have hskip := hrec.flagIdx_skip s
            obtain ⟨s₁, hafter₁, hle₁, hidx₁, hdepth₁⟩ :=
              ih hbelow (by omega) (s := skip s) (by omega)
            obtain ⟨s₂, hafter₂, hle₂, hidx₂, hdepth₂⟩ := ih hbelow (by omega) (s := s₁) hle₁
            obtain ⟨s', hafter, hidx⟩ := hrec.node hvis hflag hexpand hafter₁ hafter₂
            rw [hexpand]
            simp only [hafter₁]
            refine ⟨s', hafter, by omega, ?_, ?_⟩
            · rw [visited, List.countP_cons_of_pos rfl, List.countP_append]
              rw [visited] at hidx₁ hidx₂
              omega
            · intro c hc
              rcases List.mem_cons.mp hc with rfl | hc
              · exact hdepth
              · rcases List.mem_append.mp hc with hc | hc
                · exact hdepth₁ c hc
                · exact hdepth₂ c hc
      · rw [if_neg hvis]
        refine ⟨s, hrec.missing hvis, hs, rfl, ?_⟩
        intro c hc
        rw [List.mem_singleton.mp hc]
        exact hdepth

end Calls

section Instances

variable {H : Type} [DecidableEq H] [Zero H] {block : BRMerkleBlock H} {hs : List H}

/-- The position that `_BRMerkleBlockRootR` returns with. -/
def rootAfter (combine : H → H → H) (block : BRMerkleBlock H) (fuel depth : ℕ) (s : Cursor) :
    Option Cursor :=
  (block.rootR combine fuel depth s).toOption.map Prod.snd

/-- The state that `_BRMerkleBlockTxHashesR` returns with. -/
def txAfter (block : BRMerkleBlock H) (cap fuel depth : ℕ) (s : TxHashesState H) :
    Option (TxHashesState H) :=
  (block.txHashesR cap fuel depth s).toOption

def skipFlag (s : Cursor) : Cursor :=
  { s with flagIdx := s.flagIdx + 1 }

def TxHashesState.skipFlag (s : TxHashesState H) : TxHashesState H :=
  { s with cursor.flagIdx := s.cursor.flagIdx + 1 }

omit [DecidableEq H] [Zero H] in
theorem read_of_visible
    (hhs : block.hashes.cells = some hs)
    {s : Cursor}
    (hvis : block.visible s) :
    ∃ hash, block.hashes.read s.hashIdx = .ok hash := by
  refine ⟨_, read_hash hhs (i := s.hashIdx) ?_⟩
  rw [block.hashes.length_eq hs hhs]
  exact hvis.2

theorem eq_ok_of_toOption
    {ε α : Type} {x : Except ε α} {a : α}
    (h : x.toOption = some a) :
    x = .ok a := by
  cases x with
  | error e =>
      cases h
  | ok b =>
      cases h
      rfl

theorem recursion_rootR
    (combine : H → H → H)
    (hhs : block.hashes.cells = some hs) :
    Recursion block id skipFlag (rootAfter combine block) where
  flagIdx_skip := fun _ => rfl
  missing := fun {fuel depth s} hvis => by
    change ¬ block.visible s at hvis
    rw [rootAfter, rootR_not_visible hvis]
    rfl
  leaf := fun {fuel depth s flag} hvis hflag hexpand => by
    change block.visible s at hvis
    obtain ⟨hash, hread⟩ := read_of_visible hhs hvis
    rw [rootAfter, rootR_leaf hvis hflag hexpand hread]
    exact ⟨_, rfl, rfl⟩
  node := fun {fuel depth s flag s₁ s₂} hvis hflag hexpand h₁ h₂ => by
    change block.visible s at hvis
    obtain ⟨⟨left, _⟩, hleft, rfl⟩ := Option.map_eq_some_iff.mp h₁
    obtain ⟨⟨right, _⟩, hright, rfl⟩ := Option.map_eq_some_iff.mp h₂
    rw [rootAfter, rootR_node hvis hflag hexpand (eq_ok_of_toOption hleft)
      (eq_ok_of_toOption hright)]
    split
    · exact ⟨_, rfl, rfl⟩
    · exact ⟨_, rfl, rfl⟩

omit [DecidableEq H] [Zero H] in
theorem recursion_txHashesR
    (cap : ℕ)
    (hhs : block.hashes.cells = some hs) :
    Recursion block TxHashesState.cursor TxHashesState.skipFlag (txAfter block cap) where
  flagIdx_skip := fun _ => rfl
  missing := fun hvis => by
    rw [txAfter, txHashesR_not_visible hvis]
    rfl
  leaf := fun {fuel depth s flag} hvis hflag hexpand => by
    obtain ⟨hash, hread⟩ := read_of_visible hhs hvis
    obtain ⟨s', htake, hcursor, -⟩ := takeLeaf_collected cap flag (s := s.skipFlag) hread
    rw [txAfter, txHashesR_leaf hvis hflag hexpand htake]
    exact ⟨_, rfl, congrArg Cursor.flagIdx hcursor⟩
  node := fun hvis hflag hexpand h₁ h₂ => by
    rw [txAfter, txHashesR_node hvis hflag hexpand (eq_ok_of_toOption h₁) (eq_ok_of_toOption h₂)]
    exact ⟨_, rfl, rfl⟩

end Instances

section Bounded

variable {H : Type} [DecidableEq H] [Zero H]

/-- The calls of `BRMerkleBlockIsValid` to `_BRMerkleBlockRootR`. -/
def rootCalls (combine : H → H → H) (block : BRMerkleBlock H) : List Call :=
  block.calls id skipFlag (rootAfter combine block) 32 0 ⟨0, 0⟩

/-- The calls of `BRMerkleBlockTxHashes` to `_BRMerkleBlockTxHashesR`. -/
def txCalls (block : BRMerkleBlock H) (room : Option ℕ) : List Call :=
  block.calls TxHashesState.cursor TxHashesState.skipFlag (txAfter block (room.getD sizeMax)) 32 0
    ⟨⟨0, 0⟩, 0, room.map (fun _ => [])⟩

/-- The calls stay within a depth and a number of nodes. -/
structure Within (l : List Call) (height flagsLen : ℕ) : Prop where
  depth_le : ∀ c ∈ l, c.depth ≤ height
  visited_le : visited l ≤ 8 * flagsLen

/-- Both functions return, with calls that the number of transactions and the
number of flags bound. -/
structure WalkBounded (combine : H → H → H) (block : BRMerkleBlock H) (height : ℕ) : Prop where
  height_eq : ceilLog2 block.totalTx = some height
  height_le : height ≤ 32
  height_tight : 1 < block.totalTx.toNat →
    2 ^ (height - 1) < block.totalTx.toNat ∧ block.totalTx.toNat ≤ 2 ^ height
  computedRoot : ∃ root, block.computedRoot combine = .ok root
  isValid : ∀ currentTime, block.isValid combine currentTime ≠ .error .noReturn ∧
    block.isValid combine currentTime ≠ .error .outOfFuel
  txHashes : ∀ room, ∃ r, block.txHashes room = .ok r
  rootCalls : Within (block.rootCalls combine) height block.flags.count
  txCalls : ∀ room, Within (block.txCalls room) height block.flags.count

variable {block : BRMerkleBlock H} {hs : List H} {fs : List UInt8}

theorem setLE_error
    {t : List UInt8} {off x : ℕ} {e : BlockFault}
    (h : setLE t off x = .error e) :
    e = .invalidWrite := by
  rw [setLE] at h
  split at h
  · cases h
  · cases h
    rfl

theorem expandTarget_error
    {target : UInt32} {e : BlockFault}
    (h : expandTarget target = .error e) :
    e = .invalidWrite := by
  rw [expandTarget] at h
  split at h
  · exact setLE_error h
  · exact setLE_error h

/-- Behind the root, `BRMerkleBlockIsValid` can only fail to write. -/
theorem isValid_error
    {combine : H → H → H} {root : H} {currentTime : UInt32} {e : BlockFault}
    (hroot : block.computedRoot combine = .ok root)
    (h : block.isValid combine currentTime = .error e) :
    e = .invalidWrite := by
  rw [isValid, hroot, Machine.ok_bind] at h
  rcases Machine.bind_eq_error.mp h with h | ⟨t, -, h⟩
  · exact expandTarget_error h
  · cases h

theorem height_tight
    {n : ℕ}
    (hn : 1 < n) :
    2 ^ (Nat.clog 2 n - 1) < n ∧ n ≤ 2 ^ Nat.clog 2 n := by
  have hpos : 0 < Nat.clog 2 n := Nat.clog_pos (by omega) hn
  exact ⟨(Nat.lt_clog_iff_pow_lt (by omega)).mp (by omega), Nat.le_pow_clog (by omega) n⟩

theorem walkBounded_of_lt
    (combine : H → H → H)
    (hhs : block.hashes.cells = some hs)
    (hfs : block.flags.cells = some fs)
    (hlt : block.totalTx.toNat < 2 ^ 31) :
    WalkBounded combine block (Nat.clog 2 block.totalTx.toNat) := by
  have hheight := ceilLog2_of_lt hlt
  have hclog := clog_lt_of_lt hlt
  have hfuel : Nat.clog 2 block.totalTx.toNat < 0 + 32 := by
    omega
  obtain ⟨s, hroot, hle, hidx, hdepth⟩ := (recursion_rootR combine hhs).returns hfs hheight
    (Nat.zero_le _) hfuel (s := ⟨0, 0⟩) (Nat.zero_le _)
  have htx := fun room : Option ℕ => (recursion_txHashesR (room.getD sizeMax) hhs).returns hfs
    hheight (Nat.zero_le _) hfuel
    (s := ⟨⟨0, 0⟩, 0, room.map (fun _ => [])⟩) (Nat.zero_le _)
  obtain ⟨⟨root, s'⟩, hroot', -⟩ := Option.map_eq_some_iff.mp hroot
  have hcomputed : block.computedRoot combine = .ok root := by
    rw [computedRoot, eq_ok_of_toOption hroot']
    rfl
  refine ⟨hheight, by omega, height_tight, ⟨root, hcomputed⟩, fun currentTime => ?_, fun room => ?_,
    ⟨hdepth, ?_⟩, fun room => ?_⟩
  · constructor
    · intro h
      exact BlockFault.noConfusion (isValid_error hcomputed h)
    · intro h
      exact BlockFault.noConfusion (isValid_error hcomputed h)
  · obtain ⟨s'', hafter, -⟩ := htx room
    exact ⟨(s''.idx, s''.txHashes.getD []), by
      rw [txHashes, eq_ok_of_toOption hafter]
      rfl⟩
  · rw [id_eq, id_eq, Nat.zero_add] at hidx
    rw [id_eq, hidx] at hle
    exact hle
  · obtain ⟨s'', -, hle', hidx', hdepth'⟩ := htx room
    rw [Nat.zero_add] at hidx'
    rw [hidx'] at hle'
    exact ⟨hdepth', hle'⟩

/-- Without flags or hashes there is one call. -/
theorem walkBounded_of_empty
    (combine : H → H → H)
    (hempty : block.flags.count = 0 ∨ block.hashes.count = 0)
    (hlt : block.totalTx.toNat < 2 ^ 31) :
    WalkBounded combine block (Nat.clog 2 block.totalTx.toNat) := by
  have hvis : ∀ s, ¬ block.visible s := by
    rintro s ⟨hflag, hhash⟩
    omega
  have hclog := clog_lt_of_lt hlt
  have hcomputed : block.computedRoot combine = .ok 0 := by
    rw [computedRoot, rootR_not_visible (hvis _)]
    rfl
  have hroot : block.rootCalls combine = [⟨0, false⟩] := by
    rw [rootCalls, calls, if_neg (hvis _)]
  have htx : ∀ room, block.txCalls room = [⟨0, false⟩] := by
    intro room
    rw [txCalls, calls, if_neg (hvis _)]
  have hone : Within [⟨0, false⟩] (Nat.clog 2 block.totalTx.toNat) block.flags.count := by
    refine ⟨fun c hc => ?_, Nat.zero_le _⟩
    rw [List.mem_singleton.mp hc]
    exact Nat.zero_le _
  refine ⟨ceilLog2_of_lt hlt, by omega, height_tight, ⟨0, hcomputed⟩, fun currentTime => ?_,
    fun room => ⟨(0, (room.map (fun _ => [])).getD []), ?_⟩, hroot ▸ hone, fun room => htx room ▸ hone⟩
  · constructor
    · intro h
      exact BlockFault.noConfusion (isValid_error hcomputed h)
    · intro h
      exact BlockFault.noConfusion (isValid_error hcomputed h)
  · rw [txHashes, txHashesR_not_visible (hvis _)]
    rfl

/-- The elements of an array are there, if there are any. -/
def Present {α : Type} (a : HeapArray α) : Prop :=
  a.cells = none → a.count = 0

/--
**Merkle walk termination.**  On a block whose arrays are there both functions
return within the height of the tree and eight nodes for each flag byte, if and
only if there are fewer than `2 ^ 31` transactions.
-/
theorem walkBounded_iff
    (combine : H → H → H) (block : BRMerkleBlock H)
    (hhashes : Present block.hashes)
    (hflags : Present block.flags) :
    (∃ height, WalkBounded combine block height) ↔ block.totalTx.toNat < 2 ^ 31 := by
  constructor
  · rintro ⟨height, h⟩
    by_contra hge
    have hheight := h.height_eq
    rw [ceilLog2_of_ge (not_lt.mp hge)] at hheight
    cases hheight
  · intro hlt
    cases hhs : block.hashes.cells with
    | none =>
        exact ⟨_, walkBounded_of_empty combine (Or.inr (hhashes hhs)) hlt⟩
    | some hs =>
        cases hfs : block.flags.cells with
        | none =>
            exact ⟨_, walkBounded_of_empty combine (Or.inl (hflags hfs)) hlt⟩
        | some fs =>
            exact ⟨_, walkBounded_of_lt combine hhs hfs hlt⟩

end Bounded

section Sample

/-- One hash under one flag byte, for a stated number of transactions. -/
def oneHashBlock (totalTx : UInt32) : BRMerkleBlock UInt256 where
  blockHash := 0
  merkleRoot := 1
  timestamp := 1540000000
  target := maxProofOfWork
  totalTx := totalTx
  hashes := HeapArray.ofList [1] (by decide)
  flags := HeapArray.ofList [1] (Nat.one_lt_two_pow (Nat.succ_ne_zero 63))

theorem walkBounded_oneTransaction :
    (∃ height, WalkBounded (· ^^^ ·) (oneHashBlock 1) height) ↔
      (oneHashBlock 1).totalTx.toNat < 2 ^ 31 :=
  walkBounded_iff (· ^^^ ·) (oneHashBlock 1) (fun h => nomatch h) (fun h => nomatch h)

/-- With `2 ^ 31` transactions the test of the first flag does not end. -/
theorem noReturn_many_transactions :
    (¬ ∃ height, WalkBounded (· ^^^ ·) (oneHashBlock 0x80000000) height) ∧
      (oneHashBlock 0x80000000).isValid (· ^^^ ·) 0 = .error .noReturn ∧
      (oneHashBlock 0x80000000).txHashes none = .error .noReturn := by
  refine ⟨?_, rfl, rfl⟩
  rintro ⟨height, h⟩
  have hheight := h.height_eq
  rw [show ceilLog2 (oneHashBlock 0x80000000).totalTx = none from rfl] at hheight
  cases hheight

end Sample

end BRMerkleBlock

end BreadwalletCore
