import BreadwalletCore.BloomFilter
import BreadwalletCore.MerkleBlock.Difficulty
import BreadwalletCore.Peer.Messages
import BreadwalletCore.Wallet.Operations

/-!
# The peer manager structure

`struct BRPeerManagerStruct` of `BRPeerManager.c`, split into the parts that
different handlers work on, and what the handlers learn from outside.

* A peer is what `BRPeerEq` compares.  `connectedPeers` never holds two equal
  ones, so a `BRPeer *` of a connection is identified with it.
* The `callback` of a published transaction stands for the pair of `callback`
  and `info`, with `none` for a `NULL` callback.
* `freed` records the addresses of the block objects freed so far.
* The stored peer addresses, ping times, timeouts and the messages sent to
  peers are left out; they only decide which event comes next.
* `fpRate` is a floating-point number; the one comparison with it that has an
  effect on the state is part of `Env`.
-/

namespace BreadwalletCore

/-- `PEER_MAX_CONNECTIONS`. -/
def peerMaxConnections : ℕ := 3

/-- `MAX_CONNECT_FAILURES`. -/
def maxConnectFailures : ℕ := 20

/-- A 160 bit hash. -/
abbrev UInt160 := BitVec 160

/-- A peer, as `BRPeerEq` sees it. -/
structure BRPeer where
  address : BitVec 128
  port : UInt16 := 8555
deriving DecidableEq

/-- `BRPublishedTx`. -/
structure BRPublishedTx where
  tx : BRTransaction
  callback : Option ℕ
deriving DecidableEq

/-- `BRTxPeerList`. -/
structure BRTxPeerList where
  txHash : UInt256
  peers : List BRPeer
deriving DecidableEq

/-- A row of `checkpoint_array`. -/
structure Checkpoint where
  height : ℕ
  hash : UInt256
  timestamp : UInt32
  target : UInt32
deriving DecidableEq

/-- What a handler reads that is not in the manager: the clock, the state of
its peers, the hash functions and the results of floating-point expressions. -/
structure Env where
  now : ℕ
  /-- the bound on recursions inside the wallet -/
  fuel : ℕ
  checkpointArray : List Checkpoint
  status : BRPeer → BRPeerStatus
  /-- `BRPeerLastBlock` -/
  lastblock : BRPeer → ℕ
  networkIsReachable : Bool
  murmur3 : List UInt8 → UInt32 → UInt32
  addressHash160 : Address → Option UInt160
  peerHash : BRPeer → UInt32
  /-- `filter->length` and `filter->hashFuncs` for a number of elements, before
  they are bounded -/
  filterLength : ℕ → ℕ
  filterHashFuncs : ℕ → UInt32
  /-- `manager->fpRate > BLOOM_REDUCED_FALSEPOSITIVE_RATE*5.0`, where it is
  asked for a peer -/
  fpRateHigh : BRPeer → Bool
  /-- the rate is so high that the peer is disconnected -/
  fpRateSevere : BRPeer → Bool

/-- What a handler can do instead of returning. -/
inductive ManagerFault
  | wallet (f : Fault)
  | arithmetic (f : ArithmeticFault)
  /-- A read through a block pointer that is `NULL`. -/
  | nullBlock
  | assertion
  | outOfFuel
deriving DecidableEq, Repr

/-- What a handler tells the application. -/
inductive ManagerEvent
  /-- `callback(info, error)` of a published transaction -/
  | published (callback error : ℕ)
  | saveBlocks (replace : Bool) (blocks : List ChainBlock)
  | wallet (e : Event)
deriving DecidableEq

/-- The transactions to be published. -/
structure PublishLists where
  publishedTx : List BRPublishedTx := []
  publishedTxHashes : List UInt256 := []
deriving DecidableEq

/-- Which peers have which transaction, and which were asked for it. -/
structure RelayLists where
  txRelays : List BRTxPeerList := []
  txRequests : List BRTxPeerList := []
deriving DecidableEq

/-- The block sets and the pointers into them. -/
structure BlockStore where
  blocks : BlockSet
  orphans : BlockSet
  checkpoints : BlockSet
  lastBlock : Option ChainBlock
  lastOrphan : Option ChainBlock := none
  /-- the static counter of `BRMerkleBlockVerifyDifficulty` -/
  pastCount : ℕ := 0
  freed : List ℕ := []

/-- The connections and the progress of the synchronisation. -/
structure Connections where
  connectedPeers : List BRPeer := []
  downloadPeer : Option BRPeer := none
  /-- the connected peers with `PEER_FLAG_SYNCED` -/
  synced : List BRPeer := []
  isConnected : Bool := false
  connectFailureCount : ℕ := 0
  maxConnectCount : ℕ := peerMaxConnections
  syncStartHeight : ℕ := 0
  estimatedHeight : ℕ := 0
deriving DecidableEq

structure BRPeerManager extends PublishLists, RelayLists, BlockStore, Connections where
  wallet : BRWallet
  earliestKeyTime : UInt32
  bloomFilter : Option BRBloomFilter := none

/-- A call of a wallet function. -/
def callWallet {α : Type} (x : Except Fault α) : Except ManagerFault α :=
  x.mapError .wallet

theorem callWallet_eq_ok
    {α : Type} {x : Except Fault α} {a : α} :
    callWallet x = .ok a ↔ x = .ok a := by
  cases x with
  | error e =>
      constructor <;> intro h <;> cases h
  | ok b =>
      constructor <;> intro h <;> cases h <;> rfl

namespace BRPeerManager

/-- `manager->lastBlock`, where it is dereferenced. -/
def last (m : BRPeerManager) : Except ManagerFault ChainBlock :=
  match m.lastBlock with
  | some b => pure b
  | none => throw .nullBlock

/-- The connected peers from the end of the array, as the loops visit them. -/
def onlinePeers (env : Env) (m : BRPeerManager) : List BRPeer :=
  m.connectedPeers.reverse.filter (fun p => env.status p = .connected)

end BRPeerManager

/-! ## Peer lists -/

namespace BRTxPeerList

/-- The peers associated with `txHash`: those of the last entry. -/
def find (list : List BRTxPeerList) (txHash : UInt256) : Option BRTxPeerList :=
  list.reverse.find? (fun e => e.txHash = txHash)

/-- `_BRTxPeerListHasPeer`. -/
def hasPeer (list : List BRTxPeerList) (txHash : UInt256) (peer : BRPeer) : Bool :=
  (find list txHash).any (fun e => peer ∈ e.peers)

/-- `_BRTxPeerListCount`. -/
def count (list : List BRTxPeerList) (txHash : UInt256) : ℕ :=
  ((find list txHash).map (fun e => e.peers.length)).getD 0

/-- Change the first entry for `txHash`. -/
def modifyFirst (f : List BRPeer → List BRPeer) (txHash : UInt256) :
    List BRTxPeerList → List BRTxPeerList
  | [] => []
  | e :: list =>
      if e.txHash = txHash then { e with peers := f e.peers } :: list
      else e :: modifyFirst f txHash list

/-- Change the last entry for `txHash`, as a scan from the end does. -/
def modifyLast (f : List BRPeer → List BRPeer) (list : List BRTxPeerList) (txHash : UInt256) :
    List BRTxPeerList :=
  (modifyFirst f txHash list.reverse).reverse

/-- `_BRTxPeerListAddPeer`: the list and the new number of peers. -/
def addPeer (list : List BRTxPeerList) (txHash : UInt256) (peer : BRPeer) :
    List BRTxPeerList × ℕ :=
  match find list txHash with
  | some e =>
      if peer ∈ e.peers then (list, e.peers.length)
      else (modifyLast (· ++ [peer]) list txHash, e.peers.length + 1)
  | none => (list ++ [⟨txHash, [peer]⟩], 1)

/-- `_BRTxPeerListRemovePeer`: the list and whether the peer was found.  One
occurrence is removed, the last. -/
def removePeer (list : List BRTxPeerList) (txHash : UInt256) (peer : BRPeer) :
    List BRTxPeerList × Bool :=
  if hasPeer list txHash peer then
    (modifyLast (fun peers => KeyedList.eraseLast id peers peer) list txHash, true)
  else (list, false)

end BRTxPeerList

end BreadwalletCore
