import BreadwalletCore.Data.KeyedList
import BreadwalletCore.MerkleBlock
import BreadwalletCore.Transaction.Parse

/-!
# Messages of one peer

`_BRPeerAcceptMessage` of `BRPeer.c` with the handlers of the inv, tx and
merkleblock messages, and the local calls that change what they read.

`knownTxHashSet` holds pointers to the elements of the array `knownTxHashes`
and is filled again when the array moves, so it is the set of its elements.
The other handlers leave the fields here alone, apart from the version message,
which sets `lastblock`; whether they accept a message is part of `PeerEnv`, and
so is `BRMerkleBlockParse`.  The callbacks are set, as the peer manager sets
them.
-/

namespace BreadwalletCore

open Segment (slice)

/-- `MAX_GETDATA_HASHES`. -/
def maxGetdataHashes : ℕ := 50000

/-- The types of inventory items that are told apart. -/
def invTx : ℕ := 1

def invBlock : ℕ := 2

/-- `BRPeerStatus`. -/
inductive BRPeerStatus
  | disconnected
  | connecting
  | connected
deriving DecidableEq, Repr

/-- The types that `_BRPeerAcceptMessage` compares with. -/
inductive MessageType
  | version
  | verack
  | addr
  | inv
  | tx
  | headers
  | getaddr
  | getdata
  | notfound
  | ping
  | pong
  | merkleblock
  | reject
  | feefilter
  /-- any other -/
  | unknown
deriving DecidableEq, Repr

/-- A merkle block of a message. -/
abbrev PeerBlock := BRMerkleBlock UInt256

/-- What a handler can do instead of returning. -/
inductive PeerFault
  | memory (f : MemoryFault)
  | block (f : BlockFault)

/-- What a handler uses that is not in the context of the peer. -/
structure PeerEnv where
  now : UInt32
  codec : ScriptCodec
  sha256d : List UInt8 → UInt256
  /-- `BRMerkleBlockParse` -/
  parseBlock : List UInt8 → Option PeerBlock
  /-- the last block of a version message, if it is accepted -/
  acceptVersion : List UInt8 → Option UInt32
  /-- the results of the handlers that are left out -/
  accepts : MessageType → List UInt8 → Bool

/-- `BRSHA256_2` of two concatenated hashes. -/
def PeerEnv.combine (env : PeerEnv) (a b : UInt256) : UInt256 :=
  env.sha256d (hashBytes a ++ hashBytes b)

/-- The callbacks and the messages sent. -/
inductive PeerEvent
  | relayedTx (tx : RawTransaction)
  | hasTx (txHash : UInt256)
  | relayedBlock (block : PeerBlock)
  /-- with the hashes that are new to the known set -/
  | sentInv (txHashes : List UInt256)
  /-- with the hashes that are new to the known set, which are not sent -/
  | sentMempool (txHashes : List UInt256)
  | sentGetdata (txHashes blockHashes : List UInt256)
  | sentGetblocks (locators : List UInt256)
  | sentPing (callback : Option ℕ)
  | sentFilterload
  /-- the completion callback of a mempool request that is refused -/
  | refusedMempool (callback : ℕ)

/-- The fields of `BRPeerContext` that the handlers here read or write. -/
structure PeerContext where
  lastblock : UInt32 := 0
  currentBlockHeight : UInt32 := 0
  needsFilterUpdate : Bool := false
  sentFilter : Bool := false
  sentGetdata : Bool := false
  sentMempool : Bool := false
  /-- nothing sets this flag -/
  sentGetblocks : Bool := false
  lastBlockHash : UInt256 := 0
  currentBlock : Option PeerBlock := none
  currentBlockTxHashes : List UInt256 := []
  knownBlockHashes : List UInt256 := []
  knownTxHashes : List UInt256 := []
  mempoolCallback : Option ℕ := none
  /-- the thread still reads messages -/
  isReading : Bool := true

namespace PeerContext

/-- One hash of `_BRPeerAddKnownTxHashes`. -/
def addKnown (knownTxHashes : List UInt256) (txHash : UInt256) : List UInt256 :=
  if txHash ∈ knownTxHashes then knownTxHashes else knownTxHashes ++ [txHash]

/-- `_BRPeerAddKnownTxHashes`. -/
def addKnownTxHashes (ctx : PeerContext) (txHashes : List UInt256) : PeerContext :=
  { ctx with knownTxHashes := txHashes.foldl addKnown ctx.knownTxHashes }

/-- The elements of `knownTxHashes` behind those of an earlier context. -/
def newKnown (ctx old : PeerContext) : List UInt256 :=
  ctx.knownTxHashes.drop old.knownTxHashes.length

/-! ## Sending -/

/-- `BRPeerSendGetdata`. -/
def sendGetdata (ctx : PeerContext) (txHashes blockHashes : List UInt256) :
    PeerContext × List PeerEvent :=
  let count := txHashes.length + blockHashes.length
  if maxGetdataHashes < count then (ctx, [])
  else if 0 < count then
    ({ ctx with sentGetdata := true }, [.sentGetdata txHashes blockHashes])
  else (ctx, [])

/-- `BRPeerSendInv`. -/
def sendInv (ctx : PeerContext) (txHashes : List UInt256) : PeerContext × List PeerEvent :=
  let ctx' := ctx.addKnownTxHashes txHashes
  (ctx', if ctx'.newKnown ctx = [] then [] else [.sentInv (ctx'.newKnown ctx)])

/-- `BRPeerSendMempool`. -/
def sendMempool (ctx : PeerContext) (knownTxHashes : List UInt256) (callback : Option ℕ) :
    PeerContext × List PeerEvent :=
  let asks : PeerContext := { ctx with sentMempool := true }
  if ¬ ctx.sentMempool ∧ ctx.mempoolCallback = none then
    let ctx' := asks.addKnownTxHashes knownTxHashes
    ({ ctx' with mempoolCallback := callback }, [.sentMempool (ctx'.newKnown ctx)])
  else (asks, (callback.map PeerEvent.refusedMempool).toList)

/-- `BRPeerSendFilterload`. -/
def sendFilterload (ctx : PeerContext) : PeerContext × List PeerEvent :=
  ({ ctx with sentFilter := true, sentMempool := false }, [.sentFilterload])

/-- `BRPeerRerequestBlocks`. -/
def rerequestBlocks (ctx : PeerContext) (fromBlock : UInt256) : PeerContext × List PeerEvent :=
  let rest := (ctx.knownBlockHashes.reverse.takeWhile (· ≠ fromBlock)).reverse
  if rest.length < ctx.knownBlockHashes.length then
    { ctx with knownBlockHashes := fromBlock :: rest }.sendGetdata [] (fromBlock :: rest)
  else (ctx, [])

/-- The ping that ends the wait for the answer to a mempool request. -/
def pingMempool (ctx : PeerContext) : PeerContext × List PeerEvent :=
  ({ ctx with mempoolCallback := none }, [.sentPing ctx.mempoolCallback])

/-! ## Inventories -/

/-- The hashes of the items of one type. -/
def invHashes (msg : List UInt8) (off count type : ℕ) : List UInt256 :=
  ((List.range count).filter (fun i =>
      LittleEndian.value (slice msg (off + 36 * i) 4) = type)).map
    (fun i => BitVec.ofNat 256 (LittleEndian.value (slice msg (off + 36 * i + 4) 32)))

/-- The loop that forgets a third of the known block hashes at a time. -/
def trimKnown : ℕ → List UInt256 → List UInt256
  | 0, hashes => hashes
  | n + 1, hashes =>
      if maxGetdataHashes < hashes.length then trimKnown n (hashes.drop (hashes.length / 3))
      else hashes

/-- The block hashes of an inventory that count. -/
def invBlocks (ctx : PeerContext) (blocks : List UInt256) : List UInt256 :=
  let blocks := if ¬ ctx.sentFilter ∧ ¬ ctx.sentGetblocks then [] else blocks
  if blocks = [ctx.lastBlockHash] then [] else blocks

/-- Remember the block hashes of an inventory. -/
def rememberBlocks (ctx : PeerContext) (blocks : List UInt256) : PeerContext :=
  let hashes := ctx.knownBlockHashes ++ blocks
  { ctx with
    lastBlockHash := if blocks.length = 1 then blocks.headD 0 else ctx.lastBlockHash
    knownBlockHashes := trimKnown hashes.length hashes }

/-- Ask for the next blocks behind 500 of them. -/
def nextGetblocks (blocks : List UInt256) : List PeerEvent :=
  if 500 ≤ blocks.length then [.sentGetblocks [blocks.getLastD 0, blocks.headD 0]] else []

/-- The ping behind the first answer to a mempool request. -/
def mempoolAnswered (ctx : PeerContext) (transactions : List UInt256) :
    PeerContext × List PeerEvent :=
  if transactions ≠ [] ∧ ctx.mempoolCallback ≠ none then ctx.pingMempool else (ctx, [])

/-- The part of `_BRPeerAcceptInvMessage` behind the checks. -/
def takeInv (ctx : PeerContext) (transactions blocks : List UInt256) :
    PeerContext × List PeerEvent :=
  let blocks := ctx.invBlocks blocks
  let ctx₁ := ctx.rememberBlocks blocks
  let blocks := if ctx.needsFilterUpdate then [] else blocks
  let known := transactions.filter (· ∈ ctx.knownTxHashes)
  let txHashes := transactions.filter (· ∉ ctx.knownTxHashes)
  let asked := (ctx₁.addKnownTxHashes txHashes).sendGetdata txHashes blocks
  let answered := asked.1.mempoolAnswered transactions
  (answered.1, known.map .hasTx ++ asked.2 ++ nextGetblocks blocks ++ answered.2)

/-- Fewer block hashes than a standard peer sends. -/
def isShortInv (ctx : PeerContext) (blocks : List UInt256) : Prop :=
  0 < ctx.currentBlockHeight ∧ 2 < blocks.length ∧ blocks.length < 500 ∧
    ctx.currentBlockHeight.toNat + ctx.knownBlockHashes.length + blocks.length <
      ctx.lastblock.toNat

instance (ctx : PeerContext) (blocks : List UInt256) : Decidable (ctx.isShortInv blocks) :=
  inferInstanceAs (Decidable (_ ∧ _))

/-- `_BRPeerAcceptInvMessage`; the last result is `r`. -/
def acceptInv (ctx : PeerContext) (msg : List UInt8) : PeerContext × List PeerEvent × Bool :=
  let count := (varInt msg 0).1
  let off := (varInt msg 0).2
  if off = 0 ∨ msg.length < wrap (off + wrap (count * 36)) then (ctx, [], false)
  else if maxGetdataHashes < count then (ctx, [], true)
  else
    let transactions := invHashes msg off count invTx
    let blocks := invHashes msg off count invBlock
    if transactions ≠ [] ∧ ¬ ctx.sentFilter ∧ ¬ ctx.sentMempool ∧ ¬ ctx.sentGetblocks then
      (ctx, [], false)
    else if 10000 < transactions.length then (ctx, [], false)
    else if ctx.isShortInv blocks then (ctx, [], false)
    else
      let taken := ctx.takeInv transactions blocks
      (taken.1, taken.2, true)

/-- An inventory that is refused does nothing. -/
theorem acceptInv_cases
    (ctx : PeerContext) (msg : List UInt8) :
    (∃ r, ctx.acceptInv msg = (ctx, [], r)) ∨
      ∃ transactions blocks, ctx.acceptInv msg =
        ((ctx.takeInv transactions blocks).1, (ctx.takeInv transactions blocks).2, true) := by
  rw [acceptInv]
  dsimp only
  split
  · exact Or.inl ⟨_, rfl⟩
  · split
    · exact Or.inl ⟨_, rfl⟩
    · split
      · exact Or.inl ⟨_, rfl⟩
      · split
        · exact Or.inl ⟨_, rfl⟩
        · split
          · exact Or.inl ⟨_, rfl⟩
          · exact Or.inr ⟨_, _, rfl⟩

/-! ## Transactions and blocks -/

/-- A transaction is delivered, perhaps as one of the current block. -/
def deliverTx (ctx : PeerContext) (tx : RawTransaction) : PeerContext × List PeerEvent :=
  match ctx.currentBlock with
  | none => (ctx, [.relayedTx tx])
  | some block =>
      let rest := KeyedList.eraseLast id ctx.currentBlockTxHashes tx.txHash
      if rest = [] then
        ({ ctx with currentBlock := none, currentBlockTxHashes := rest },
          [.relayedTx tx, .relayedBlock block])
      else ({ ctx with currentBlockTxHashes := rest }, [.relayedTx tx])

/-- `_BRPeerAcceptTxMessage`. -/
def acceptTx (env : PeerEnv) (ctx : PeerContext) (msg : List UInt8) :
    Except PeerFault (PeerContext × List PeerEvent × Bool) := do
  let parsed ← (parse env.codec env.sha256d msg).mapError .memory
  match parsed with
  | none => pure (ctx, [], false)
  | some tx =>
      if ¬ ctx.sentFilter ∧ ¬ ctx.sentGetdata then pure (ctx, [], false)
      else pure ((ctx.deliverTx tx.1).1, (ctx.deliverTx tx.1).2, true)

/-- The hashes that `BRMerkleBlockTxHashes` returns, with room for all. -/
def matchedHashes (block : PeerBlock) : Except BlockFault (List UInt256) := do
  let count ← block.txHashes none
  let written ← block.txHashes (some count.1)
  pure written.2

/-- A block is handed over, or waits for its transactions. -/
def takeBlock (ctx : PeerContext) (block : PeerBlock) (hashes : List UInt256) :
    PeerContext × List PeerEvent :=
  let awaited :=
    ctx.currentBlockTxHashes ++ hashes.reverse.filter (· ∉ ctx.knownTxHashes)
  if awaited = [] then ({ ctx with currentBlockTxHashes := awaited }, [.relayedBlock block])
  else ({ ctx with currentBlock := some block, currentBlockTxHashes := awaited }, [])

/-- `_BRPeerAcceptMerkleblockMessage`. -/
def acceptMerkleblock (env : PeerEnv) (ctx : PeerContext) (msg : List UInt8) :
    Except PeerFault (PeerContext × List PeerEvent × Bool) :=
  match env.parseBlock msg with
  | none => pure (ctx, [], false)
  | some block => do
      let valid ← (block.isValid env.combine env.now).mapError .block
      if ¬ valid then pure (ctx, [], false)
      else if ¬ ctx.sentFilter ∧ ¬ ctx.sentGetdata then pure (ctx, [], false)
      else do
        let hashes ← (matchedHashes block).mapError .block
        pure ((ctx.takeBlock block hashes).1, (ctx.takeBlock block hashes).2, true)

/-! ## Dispatch -/

/-- `_BRPeerAcceptMessage`.  A message that is no transaction ends the wait for
the transactions of a block. -/
def acceptMessage (env : PeerEnv) (ctx : PeerContext) (type : MessageType) (msg : List UInt8) :
    Except PeerFault (PeerContext × List PeerEvent × Bool) :=
  if ctx.currentBlock.isSome ∧ type ≠ .tx then
    pure ({ ctx with currentBlock := none, currentBlockTxHashes := [] }, [], false)
  else
    match type with
    | .inv => pure (ctx.acceptInv msg)
    | .tx => ctx.acceptTx env msg
    | .merkleblock => ctx.acceptMerkleblock env msg
    | .version =>
        match env.acceptVersion msg with
        | none => pure (ctx, [], false)
        | some lastblock => pure ({ ctx with lastblock := lastblock }, [], true)
    | type => pure (ctx, [], env.accepts type msg)

end PeerContext

/-- A message, or a call of the peer manager. -/
inductive PeerCall
  | message (type : MessageType) (msg : List UInt8)
  | sendInv (txHashes : List UInt256)
  | sendMempool (knownTxHashes : List UInt256) (callback : Option ℕ)
  | sendFilterload
  | sendGetdata (txHashes blockHashes : List UInt256)
  | rerequestBlocks (fromBlock : UInt256)
  | setCurrentBlockHeight (height : UInt32)
  | setNeedsFilterUpdate (needsFilterUpdate : Bool)
  /-- the thread is done waiting for the answer to a mempool request -/
  | mempoolTimeout

/-- A call, with what its handler sees. -/
structure PeerInput where
  env : PeerEnv
  call : PeerCall

namespace PeerContext

/-- One step of a connection.  A message that is not accepted ends the loop of
`_peerThreadRoutine`. -/
def step (ctx : PeerContext) (i : PeerInput) :
    Except PeerFault (PeerContext × List PeerEvent) :=
  match i.call with
  | .message type msg =>
      if ctx.isReading then do
        let r ← ctx.acceptMessage i.env type msg
        pure ({ r.1 with isReading := r.2.2 }, r.2.1)
      else pure (ctx, [])
  | .sendInv txHashes => pure (ctx.sendInv txHashes)
  | .sendMempool knownTxHashes callback => pure (ctx.sendMempool knownTxHashes callback)
  | .sendFilterload => pure ctx.sendFilterload
  | .sendGetdata txHashes blockHashes => pure (ctx.sendGetdata txHashes blockHashes)
  | .rerequestBlocks fromBlock => pure (ctx.rerequestBlocks fromBlock)
  | .setCurrentBlockHeight height => pure ({ ctx with currentBlockHeight := height }, [])
  | .setNeedsFilterUpdate b => pure ({ ctx with needsFilterUpdate := b }, [])
  | .mempoolTimeout => pure ctx.pingMempool

end PeerContext

end BreadwalletCore
