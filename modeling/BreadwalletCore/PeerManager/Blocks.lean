import BreadwalletCore.PeerManager.Filter

/-!
# Relayed blocks

`_BRPeerManagerVerifyBlock`, `_peerRelayedBlock` and the functions they call in
`BRPeerManager.c`, `BRPeerManagerNew` and `BRPeerManagerRescan`.

`_peerRelayedBlock` is cut at its branches: each returns a `Handled`, and what
stands behind the branches is `Handled.finish`.  A block that has been freed is
`NULL` there.  The loops that follow `prevBlock` are bounded by the number of
stored blocks; where they would run longer, they run in a circle.
-/

namespace BreadwalletCore

/-- A week, in seconds. -/
def weekTime : UInt32 := 7 * 24 * 60 * 60

/-- The number of blocks between two difficulty transitions. -/
def transitionInterval (height : ℕ) : ℕ :=
  if height < dgwStartBlock then blockDifficultyInterval else dgwBlockDifficultyInterval

/-- `timestamp/2 + prev->timestamp/2`, or `timestamp` without a predecessor. -/
def ChainBlock.txTime (block : ChainBlock) (prev : Option ChainBlock) : UInt32 :=
  match prev with
  | some p => block.timestamp / 2 + p.timestamp / 2
  | none => block.timestamp

/-- It is a header (it has 0 `totalTx`) that is newer than one week before
`earliestKeyTime`. -/
def ChainBlock.isRecentHeader (block : ChainBlock) (earliestKeyTime : UInt32) : Bool :=
  block.totalTx = 0 ∧ block.timestamp + weekTime > earliestKeyTime + 2 * 60 * 60

/-- `checkpoint_array[CHECKPOINT_COUNT - 1].height`. -/
def Env.lastCheckpointHeight (env : Env) : ℕ :=
  (env.checkpointArray.getLast?.map Checkpoint.height).getD 0

/-! ## Verification -/

namespace BlockStore

/-- Remove a block from `blocks` and free it. -/
def freeBlock (s : BlockStore) (b : ChainBlock) : BlockStore :=
  { s with
    blocks := KeyedList.remove (·.blockHash) s.blocks b.blockHash
    freed := b.addr :: s.freed }

/-- The loop that frees up some memory behind a difficulty transition. -/
def freeLoop (interval : ℕ) : ℕ → UInt256 → BlockStore → Except ManagerFault BlockStore
  | 0, _, _ => throw .outOfFuel
  | n + 1, prevBlock, s =>
      match s.blocks.get prevBlock with
      | none => pure s
      | some b =>
          freeLoop interval n b.prevBlock
            (if b.height % interval ≠ 0 then s.freeBlock b else s)

/-- The block at the previous difficulty transition. -/
def previousTransition (s : BlockStore) (block : ChainBlock) : Option ChainBlock :=
  s.blocks.back (transitionInterval block.height) block

/-- Is the block at a difficulty transition? -/
def atTransition (block : ChainBlock) : Prop :=
  block.height % transitionInterval block.height = 0

instance (block : ChainBlock) : Decidable (atTransition block) :=
  inferInstanceAs (Decidable (_ = _))

/-- Find the previous difficulty transition and free what is behind it. -/
def passTransition (s : BlockStore) (block : ChainBlock) :
    Except ManagerFault (BlockStore × Bool) :=
  if atTransition block then
    match s.previousTransition block with
    | none => pure (s, false)
    | some b => do
        let s ← freeLoop (transitionInterval block.height) (s.blocks.length + 1) b.prevBlock s
        pure (s, true)
  else pure (s, true)

/-- Is there no other checkpoint at the height of the block? -/
def checkpointOk (s : BlockStore) (block : ChainBlock) : Bool :=
  (s.checkpoints.getHeight block.height).all (fun c => c.blockHash = block.blockHash)

/-- `_BRPeerManagerVerifyBlock`. -/
def verifyBlock (s : BlockStore) (block prev : ChainBlock) :
    Except ManagerFault (BlockStore × Bool) := do
  let (s, found) ← s.passTransition block
  if found then
    let (valid, pastCount) ←
      (DifficultyCall.verify ⟨block, prev, s.blocks⟩ s.pastCount).mapError .arithmetic
    let s := { s with pastCount := pastCount }
    pure (s, valid && s.checkpointOk block)
  else pure (s, false)

end BlockStore

/-! ## Walks through the stored blocks -/

namespace BlockSet

/-- Walk back while the height is above the given one. -/
def walkDown (blocks : BlockSet) (height : ℕ) :
    ℕ → Option ChainBlock → Except ManagerFault (Option ChainBlock)
  | 0, _ => throw .outOfFuel
  | _ + 1, none => pure none
  | n + 1, some b =>
      if height < b.height then walkDown blocks height n (blocks.get b.prevBlock)
      else pure (some b)

/-- Walk back to where the fork joins the main chain. -/
def joinLoop (blocks : BlockSet) :
    ℕ → Option ChainBlock → Option ChainBlock →
      Except ManagerFault (Option ChainBlock × Option ChainBlock)
  | 0, _, _ => throw .outOfFuel
  | n + 1, some b, some b2 =>
      if b.blockHash = b2.blockHash then pure (some b, some b2)
      else
        match blocks.get b.prevBlock with
        | none => pure (none, some b2)
        | some b' =>
            joinLoop blocks n (some b')
              (if b'.height < b2.height then blocks.get b2.prevBlock else some b2)
  | _ + 1, b, b2 => pure (b, b2)

/-- A block and the blocks behind it, up to a number. -/
def runBack (blocks : BlockSet) : ℕ → Option ChainBlock → List ChainBlock
  | 0, _ => []
  | _ + 1, none => []
  | n + 1, some b => b :: runBack blocks n (blocks.get b.prevBlock)

end BlockSet

/-- Set the transaction heights for the new main chain. -/
def BRWallet.replayLoop (now : ℕ) (blocks : BlockSet) (joinHeight : ℕ) :
    ℕ → Option ChainBlock → BRWallet → Except ManagerFault (BRWallet × List Event)
  | 0, _, _ => throw .outOfFuel
  | _ + 1, none, w => pure (w, [])
  | n + 1, some b, w =>
      if joinHeight < b.height then
        let prev := blocks.get b.prevBlock
        if b.txHashes = [] then replayLoop now blocks joinHeight n prev w
        else do
          let (w, es) ← callWallet
            (w.updateTransactions now b.txHashes (UInt32.ofNat b.height) (b.txTime prev))
          let (w, es') ← replayLoop now blocks joinHeight n prev w
          pure (w, es ++ es')
      else pure (w, [])

/-! ## Published and relayed transactions -/

/-- Remove the entries with `p` from both arrays. -/
def PublishLists.rm (p : BRPublishedTx → Bool) :
    List BRPublishedTx → List UInt256 → PublishLists
  | e :: publishedTx, h :: publishedTxHashes =>
      let l := rm p publishedTx publishedTxHashes
      if p e then l else ⟨e :: l.publishedTx, h :: l.publishedTxHashes⟩
  | publishedTx, publishedTxHashes => ⟨publishedTx, publishedTxHashes⟩

namespace BRPeerManager

/-- Remove a confirmed transaction from the publish list and the relay counts. -/
def rmConfirmed (m : BRPeerManager) (txHash : UInt256) : BRPeerManager :=
  { m with
    toPublishLists :=
      .rm (fun e => txHash = e.tx.txHash) m.publishedTx m.publishedTxHashes
    txRelays := KeyedList.remove (·.txHash) m.txRelays txHash }

/-- `_BRPeerManagerUpdateTx`. -/
def updateTx (env : Env) (m : BRPeerManager) (txHashes : List UInt256)
    (blockHeight timestamp : UInt32) : Except ManagerFault (BRPeerManager × List ManagerEvent) := do
  let m := if blockHeight ≠ txUnconfirmed then txHashes.foldl rmConfirmed m else m
  let (w, es) ← callWallet (m.wallet.updateTransactions env.now txHashes blockHeight timestamp)
  pure ({ m with wallet := w }, es.map .wallet)

/-- One peer of `_BRPeerManagerLoadMempools`. -/
def loadMempool (env : Env) (m : BRPeerManager) (peer : BRPeer) :
    Except ManagerFault BRPeerManager :=
  if some peer ≠ m.downloadPeer ∨ env.fpRateHigh peer then m.loadBloomFilter env peer
  else pure m

/-- `_BRPeerManagerLoadMempools`. -/
def loadMempools (env : Env) (m : BRPeerManager) : Except ManagerFault BRPeerManager :=
  (m.onlinePeers env).foldlM (loadMempool env) m

/-! ## The branches of `_peerRelayedBlock` -/

/-- The block with the height that its predecessor gives it. -/
def placeBlock (m : BRPeerManager) (block : ChainBlock) : ChainBlock :=
  match m.blocks.get block.prevBlock with
  | some prev => { block with height := prev.height + 1 }
  | none => block

/-- What `lastBlock` is read for while the false positive rate is tracked. -/
def trackRate (env : Env) (m : BRPeerManager) (peer : BRPeer) (block : ChainBlock) :
    Except ManagerFault Unit :=
  if some peer = m.downloadPeer ∧ 0 < block.totalTx ∧ ¬ env.fpRateSevere peer then do
    let _ ← m.last
    pure ()
  else pure ()

/-- The outcome of a branch: the block, unless it has been freed, and how many
blocks are to be saved. -/
structure Handled where
  manager : BRPeerManager
  events : List ManagerEvent := []
  block : Option ChainBlock := none
  saveCount : ℕ := 0

/-- Free the block. -/
def ignoreBlock (m : BRPeerManager) (block : ChainBlock) : Handled :=
  { manager := { m with freed := block.addr :: m.freed } }

/-- Is a block chain download from this peer going on? -/
def isSyncing (m : BRPeerManager) (peer : BRPeer) : Except ManagerFault Bool :=
  if some peer = m.downloadPeer then do
    let lastBlock ← m.last
    pure (decide (lastBlock.height < m.estimatedHeight))
  else pure false

/-- Ignore a potentially incomplete block when a filter update is pending. -/
def awaitFilter (m : BRPeerManager) (peer : BRPeer) (block : ChainBlock) :
    Except ManagerFault Handled := do
  let syncing ← m.isSyncing peer
  pure ((if syncing then { m with connectFailureCount := 0 } else m).ignoreBlock block)

/-- Put the block into `orphans`. -/
def addOrphan (m : BRPeerManager) (block : ChainBlock) : Handled :=
  { manager :=
      { m with
        orphans := KeyedList.add (·.prevBlock) m.orphans block
        lastOrphan := some block }
    block := some block }

/-- The block is an orphan. -/
def relayOrphan (env : Env) (m : BRPeerManager) (block : ChainBlock) :
    Except ManagerFault Handled := do
  let _ ← m.last
  if (block.timestamp + weekTime).toNat < env.now then pure (m.ignoreBlock block)
  else pure (m.addOrphan block)

/-- Set the heights of the transactions of a block. -/
def confirmTxs (env : Env) (m : BRPeerManager) (block prev : ChainBlock) :
    Except ManagerFault (BRPeerManager × List ManagerEvent) :=
  if block.txHashes = [] then pure (m, [])
  else m.updateTx env block.txHashes (UInt32.ofNat block.height) (block.txTime (some prev))

/-- At the estimated height the chain download is complete. -/
def completeDownload (env : Env) (m : BRPeerManager) (block : ChainBlock) (saveCount : ℕ) :
    Except ManagerFault (BRPeerManager × ℕ) :=
  if block.height = m.estimatedHeight then do
    let m ← m.loadMempools env
    pure (m, block.height % blockDifficultyInterval + blockDifficultyInterval + 1)
  else pure (m, saveCount)

/-- The new block extends the main chain. -/
def extendChain (env : Env) (m : BRPeerManager) (peer : BRPeer) (block prev : ChainBlock) :
    Except ManagerFault Handled := do
  let m : BRPeerManager :=
    { m with
      blocks := KeyedList.add (·.blockHash) m.blocks block
      lastBlock := some block }
  let (m, es) ← m.confirmTxs env block prev
  let m : BRPeerManager :=
    if block.height < m.estimatedHeight ∧ some peer = m.downloadPeer then
      { m with connectFailureCount := 0 }
    else m
  -- save transition block immediately
  let saveCount := if block.height % blockDifficultyInterval = 0 then 1 else 0
  let (m, saveCount) ← m.completeDownload env block saveCount
  pure { manager := m, events := es, block := some block, saveCount := saveCount }

/-- Put the block in the place of the one with the same hash and free that. -/
def replaceBlock (m : BRPeerManager) (block : ChainBlock) : BRPeerManager :=
  let m' : BRPeerManager := { m with blocks := KeyedList.add (·.blockHash) m.blocks block }
  match m.blocks.get block.blockHash with
  | none => m'
  | some b =>
      if b.addr = block.addr then m'
      else
        { m' with
          orphans :=
            if (m.orphans.getPrev b.prevBlock).any (fun o => o.addr = b.addr) then
              KeyedList.remove (·.prevBlock) m.orphans b.prevBlock
            else m.orphans
          lastOrphan := m.lastOrphan.filter (fun o => o.addr ≠ b.addr)
          freed := b.addr :: m.freed }

/-- A block on the main chain that has been relayed again. -/
def confirmExisting (env : Env) (m : BRPeerManager) (block prev lastBlock : ChainBlock) :
    Except ManagerFault (BRPeerManager × List ManagerEvent) := do
  let (m, es) ← m.confirmTxs env block prev
  pure
    (if block.height = lastBlock.height then { m with lastBlock := some block } else m, es)

/-- We already have the block (or at least the header). -/
def relayExisting (env : Env) (m : BRPeerManager) (block prev lastBlock : ChainBlock) :
    Except ManagerFault Handled := do
  let b ← m.blocks.walkDown block.height (m.blocks.length + 2) (some lastBlock)
  match b with
  | none => throw .nullBlock
  | some b =>
      -- if it's not on a fork, set block heights for its transactions
      let (m, es) ←
        (if b.blockHash = block.blockHash then m.confirmExisting env block prev lastBlock
        else pure (m, []) : Except ManagerFault (BRPeerManager × List ManagerEvent))
      pure { manager := m.replaceBlock block, events := es, block := some block }

/-- The fork is now longer than the main chain. -/
def reorganize (env : Env) (m : BRPeerManager) (block lastBlock : ChainBlock) :
    Except ManagerFault Handled := do
  let (join, b2) ← m.blocks.joinLoop (m.blocks.length + 1) (some block) (some lastBlock)
  match join with
  | none => throw .nullBlock
  | some join =>
      -- mark tx after the join point as unconfirmed
      let (w, es) ← callWallet
        (m.wallet.setTxUnconfirmedAfter env.now (UInt32.ofNat join.height))
      let (w, es') ←
        (match b2 with
        | some b2 => w.replayLoop env.now m.blocks b2.height (m.blocks.length + 1) (some block)
        | none => pure (w, []))
      let m : BRPeerManager := { m with wallet := w, lastBlock := some block }
      let (m, saveCount) ← m.completeDownload env block 0
      pure
        { manager := m
          events := (es ++ es').map .wallet
          block := some block
          saveCount := saveCount }

/-- The new block is on a fork. -/
def relayFork (env : Env) (m : BRPeerManager) (block lastBlock : ChainBlock) :
    Except ManagerFault Handled :=
  let m : BRPeerManager := { m with blocks := KeyedList.add (·.blockHash) m.blocks block }
  if lastBlock.height < block.height then m.reorganize env block lastBlock
  else pure { manager := m, block := some block }

/-- The branches for a valid block. -/
def relayValid (env : Env) (m : BRPeerManager) (peer : BRPeer) (block prev : ChainBlock) :
    Except ManagerFault Handled := do
  let lastBlock ← m.last
  if block.prevBlock = lastBlock.blockHash then m.extendChain env peer block prev
  else if (m.blocks.get block.blockHash).isSome then m.relayExisting env block prev lastBlock
  else if lastBlock.height < env.lastblock peer ∧ lastBlock.height + 1 < block.height then
    pure (m.addOrphan block)
  else if block.height ≤ env.lastCheckpointHeight then pure (m.ignoreBlock block)
  else m.relayFork env block lastBlock

/-- The branches for a block with a known predecessor. -/
def relayLinked (env : Env) (m : BRPeerManager) (peer : BRPeer) (block prev : ChainBlock) :
    Except ManagerFault Handled := do
  let (s, valid) ← m.toBlockStore.verifyBlock block prev
  let m : BRPeerManager := { m with toBlockStore := s }
  if valid then m.relayValid env peer block prev else pure (m.ignoreBlock block)

/-- The branches of `_peerRelayedBlock`. -/
def handleBlock (env : Env) (m : BRPeerManager) (peer : BRPeer) (block : ChainBlock) :
    Except ManagerFault Handled :=
  if block.isRecentHeader m.earliestKeyTime then pure (m.ignoreBlock block)
  else if m.bloomFilter = none then m.awaitFilter peer block
  else
    match m.blocks.get block.prevBlock with
    | none => m.relayOrphan env block
    | some prev => m.relayLinked env peer block prev

/-! ## Behind the branches -/

/-- How many of the collected blocks are saved, so that they start at a
difficulty interval. -/
def saveLength (saved : List ChainBlock) : ℕ :=
  match saved.getLast? with
  | none => 0
  | some b =>
      let j := b.height % blockDifficultyInterval
      if j = 0 then saved.length
      else if blockDifficultyInterval - j < saved.length then
        saved.length - (blockDifficultyInterval - j)
      else 0

/-- The blocks to be saved, which the assertion checks. -/
def savedBlocks (blocks : BlockSet) (block : Option ChainBlock) (saveCount : ℕ) :
    Except ManagerFault (List ChainBlock) :=
  let saved := blocks.runBack saveCount block
  let saved := saved.take (saveLength saved)
  if saved.getLast?.all (fun b => b.height % blockDifficultyInterval = 0) then pure saved
  else throw .assertion

/-- The call of `saveBlocks`. -/
def saveEvents (saved : List ChainBlock) : List ManagerEvent :=
  if saved = [] then [] else [.saveBlocks (decide (1 < saved.length)) saved]

/-- Raise the estimated height and take out the next block, where it was
received as an orphan. -/
def releaseNext (m : BRPeerManager) (block : ChainBlock) : BRPeerManager × Option ChainBlock :=
  if block.height = blockUnknownHeight then (m, none)
  else
    ({ m with
        estimatedHeight := max m.estimatedHeight block.height
        orphans := KeyedList.remove (·.prevBlock) m.orphans block.blockHash },
      m.orphans.getPrev block.blockHash)

/-- What stands behind the branches. -/
def Handled.finish (h : Handled) :
    Except ManagerFault (BRPeerManager × List ManagerEvent × Option ChainBlock) :=
  match h.block with
  | none => pure (h.manager, h.events, none)
  | some block => do
      let (m, next) := h.manager.releaseNext block
      let saved ← savedBlocks m.blocks (some block) h.saveCount
      pure (m, h.events ++ saveEvents saved, next)

/-- `_peerRelayedBlock` up to its recursive call: also the block for that. -/
def relayStep (env : Env) (m : BRPeerManager) (peer : BRPeer) (block : ChainBlock) :
    Except ManagerFault (BRPeerManager × List ManagerEvent × Option ChainBlock) := do
  let block := m.placeBlock block
  m.trackRate env peer block
  let h ← m.handleBlock env peer block
  h.finish

/-- `_peerRelayedBlock` with a bound on the recursion. -/
def relayLoop (env : Env) (peer : BRPeer) :
    ℕ → BRPeerManager → ChainBlock → Except ManagerFault (BRPeerManager × List ManagerEvent)
  | 0, _, _ => throw .outOfFuel
  | n + 1, m, block => do
      let (m, es, next) ← m.relayStep env peer block
      match next with
      | none => pure (m, es)
      | some next => do
          let (m, es') ← relayLoop env peer n m next
          pure (m, es ++ es')

/-- `_peerRelayedBlock`.  Each recursive call takes a block out of `orphans`. -/
def relayedBlock (env : Env) (m : BRPeerManager) (peer : BRPeer) (block : ChainBlock) :
    Except ManagerFault (BRPeerManager × List ManagerEvent) :=
  relayLoop env peer (m.orphans.length + 2) m block

end BRPeerManager

end BreadwalletCore
