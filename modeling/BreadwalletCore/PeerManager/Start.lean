import BreadwalletCore.PeerManager.Blocks

/-!
# New managers and rescans

`BRPeerManagerNew`, `BRPeerManagerConnect` and `BRPeerManagerRescan` of
`BRPeerManager.c`.

The blocks that stand for the rows of `checkpoint_array` get their position as
address.  The peers that `BRPeerManagerConnect` draws at random are an argument.
-/

namespace BreadwalletCore

/-- The first row counts, and a row more than a week older than
`earliestKeyTime`. -/
def Checkpoint.startsSync (c : Checkpoint) (i : ℕ) (earliestKeyTime : UInt32) : Bool :=
  i = 0 ∨ c.timestamp + weekTime < earliestKeyTime

/-- The block that stands for a row. -/
def Checkpoint.block (c : Checkpoint) (i : ℕ) : ChainBlock where
  addr := i
  blockHash := c.hash
  prevBlock := 0
  timestamp := c.timestamp
  target := c.target
  height := c.height

/-- `checkpoint_array` of the test network. -/
def testCheckpoints : List Checkpoint :=
  [⟨0, 0x000000055c6b201ac99ed634953f92bd52239f5b26e090ce3caab6ec81bec921,
      1517350340, 0x1e00ffff⟩,
    ⟨247968, 0x00000304caec54e449453cf020cebeb7e767971fae73a2db286186ef42137e2b,
      1529405484, 0x1e035229⟩]

/-- `checkpoint_array` of the main network, up to its last row, which lacks the
timestamp.  One hash is written with a prefix `0x`, which is decoded as part of
it. -/
def mainCheckpoints : List Checkpoint :=
  [⟨0, 0x604148281e5c4b7f2487e5d03cd60d8e6f69411d613f6448034508cea52e9574,
      1492973331, 0x1e0ffff0⟩,
    ⟨1, 0x2d94a35159bf59897eb709534f707ac587112ef8e2db52a7c7153099e77cecf3,
      1492995597, 0x1e0ffff0⟩,
    ⟨2, 0x00580a107e111bea326b64dc098c057a3b96622c1521c23e4f5b51647aa5e41e,
      1492995988, 0x1e0fffff⟩,
    ⟨50000, 0xd3cdc4bd5bdafa908fae273f5cca9fda527b49e3fe727c6fe9122f28f2afbf6d,
      1505605850, 0x1b0f6cc9⟩]

namespace BlockStore

/-- The empty sets. -/
def empty : BlockStore where
  blocks := []
  orphans := []
  checkpoints := []
  lastBlock := none

/-- One row of the table. -/
def addCheckpoint (earliestKeyTime : UInt32) (s : BlockStore) (row : Checkpoint × ℕ) :
    BlockStore :=
  let block := row.1.block row.2
  { s with
    checkpoints := KeyedList.add (·.height) s.checkpoints block
    blocks := KeyedList.add (·.blockHash) s.blocks block
    lastBlock := if row.1.startsSync row.2 earliestKeyTime then some block else s.lastBlock }

/-- The sets with the checkpoints in them. -/
def ofCheckpoints (checkpointArray : List Checkpoint) (earliestKeyTime : UInt32) : BlockStore :=
  checkpointArray.zipIdx.foldl (addCheckpoint earliestKeyTime) .empty

/-- Does a block replace the last transition block found so far? -/
def isLaterTransition (block : Option ChainBlock) (b : ChainBlock) : Bool :=
  b.height % blockDifficultyInterval = 0 ∧ block.all (fun t => t.height < b.height)

/-- One of the restored blocks. -/
def restoreBlock (s : BlockStore × Option ChainBlock) (b : ChainBlock) :
    Except ManagerFault (BlockStore × Option ChainBlock) :=
  if b.height = blockUnknownHeight then throw .assertion
  else
    pure
      ({ s.1 with orphans := KeyedList.add (·.prevBlock) s.1.orphans b },
        if isLaterTransition s.2 b then some b else s.2)

/-- Build the chain from the last transition block on. -/
def restoreLoop : ℕ → Option ChainBlock → BlockStore → Except ManagerFault BlockStore
  | 0, _, _ => throw .outOfFuel
  | _ + 1, none, s => pure s
  | n + 1, some block, s =>
      let orphans := KeyedList.remove (·.prevBlock) s.orphans block.prevBlock
      restoreLoop n (BlockSet.getPrev orphans block.blockHash)
        { s with
          blocks := KeyedList.add (·.blockHash) s.blocks block
          lastBlock := some block
          orphans := orphans }

/-- Restore the saved blocks. -/
def restore (s : BlockStore) (blocks : List ChainBlock) : Except ManagerFault BlockStore := do
  let (s, block) ← blocks.foldlM restoreBlock (s, none)
  restoreLoop (blocks.length + 2) block s

end BlockStore

namespace BRPeerManager

/-- `BRPeerManagerNew`. -/
def new (env : Env) (wallet : BRWallet) (earliestKeyTime : UInt32) (blocks : List ChainBlock) :
    Except ManagerFault BRPeerManager := do
  let s ← (BlockStore.ofCheckpoints env.checkpointArray earliestKeyTime).restore blocks
  pure
    { toPublishLists := {}
      toRelayLists := {}
      toBlockStore := s
      toConnections := {}
      wallet := wallet
      earliestKeyTime := earliestKeyTime }

/-- Is there no download peer, or is it ahead? -/
def needsSync (m : BRPeerManager) : Except ManagerFault Bool :=
  match m.downloadPeer with
  | none => pure true
  | some _ => do
      let lastBlock ← m.last
      pure (decide (lastBlock.height < m.estimatedHeight))

/-- Note where the synchronisation starts. -/
def startSync (m : BRPeerManager) : Except ManagerFault BRPeerManager := do
  let behind ← m.needsSync
  if behind ∧ m.syncStartHeight = 0 then do
    let lastBlock ← m.last
    pure { m with syncStartHeight := lastBlock.height + 1 }
  else pure m

theorem startSync_ok
    {m m' : BRPeerManager}
    (h : m.startSync = .ok m') :
    ∃ height, m' = { m with syncStartHeight := height } := by
  obtain ⟨behind, -, h⟩ := Machine.bind_eq_ok.mp h
  split at h
  · obtain ⟨b, -, hret⟩ := Machine.bind_eq_ok.mp h
    cases hret
    exact ⟨_, rfl⟩
  · cases h
    exact ⟨m.syncStartHeight, rfl⟩

/-- Take a drawn peer, unless there are enough or it is connected already. -/
def pickPeer (maxConnectCount : ℕ) (connectedPeers : List BRPeer) (p : BRPeer) : List BRPeer :=
  if connectedPeers.length < maxConnectCount ∧ p ∉ connectedPeers then connectedPeers ++ [p]
  else connectedPeers

/-- `_BRPeerManagerSyncStopped`. -/
def syncStopped (m : BRPeerManager) : BRPeerManager :=
  { m with syncStartHeight := 0 }

/-- `BRPeerManagerConnect`, drawing the given peers. -/
def connect (m : BRPeerManager) (peers : List BRPeer) : Except ManagerFault BRPeerManager := do
  let m : BRPeerManager :=
    if maxConnectFailures ≤ m.connectFailureCount then { m with connectFailureCount := 0 } else m
  let m ← m.startSync
  let m : BRPeerManager :=
    { m with connectedPeers := peers.foldl (pickPeer m.maxConnectCount) m.connectedPeers }
  pure (if m.connectedPeers = [] then m.syncStopped else m)

/-- The row that a rescan starts from. -/
def rescanCheckpoint (checkpointArray : List Checkpoint) (earliestKeyTime : UInt32) :
    Option Checkpoint :=
  (checkpointArray.zipIdx.reverse.find?
    (fun row => row.1.startsSync row.2 earliestKeyTime)).map Prod.fst

/-- `BRPeerManagerRescan`, drawing the given peers. -/
def rescan (env : Env) (m : BRPeerManager) (peers : List BRPeer) :
    Except ManagerFault BRPeerManager :=
  if m.isConnected then
    match rescanCheckpoint env.checkpointArray m.earliestKeyTime with
    | none => { m with syncStartHeight := 0 }.connect peers
    | some c =>
        { m with lastBlock := m.blocks.get c.hash, syncStartHeight := 0 }.connect peers
  else pure m

end BRPeerManager

/-! ## Samples -/

/-- A key that derives no address. -/
def bareKey : BRMasterPubKey where
  addressAt _ _ := none

/-- What the handlers see while there is no connection. -/
def quietEnv (checkpointArray : List Checkpoint) : Env where
  now := 1600000000
  fuel := 1
  checkpointArray := checkpointArray
  status _ := .disconnected
  lastblock _ := 0
  networkIsReachable := true
  murmur3 _ seed := seed
  addressHash160 _ := none
  peerHash _ := 0
  filterLength _ := 1
  filterHashFuncs _ := 1
  fpRateHigh _ := false
  fpRateSevere _ := false

def samplePeer : BRPeer := ⟨1, 8555⟩

end BreadwalletCore
