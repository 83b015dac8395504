import BreadwalletCore.PeerManager.Start

/-!
# The handlers of the peer manager

The functions of `BRPeerManager.c` that a peer, a pong or the application
calls, each as one event.

What a handler sends to a peer is left out, and so are the handlers that only
send something.  A function that gives up the lock in between is more than one
event: `BRPeerManagerConnect` is `beginConnect` and then `dial`, and
`BRPeerManagerRescan` and `_peerDisconnected` end with a connect of their own.
-/

namespace BreadwalletCore

/-- `EPROTO`. -/
def eproto : ℕ := 100

/-- `EINVAL`. -/
def einval : ℕ := 22

/-- `ENOTCONN`. -/
def enotconn : ℕ := 57

/-- `ETIMEDOUT`. -/
def etimedout : ℕ := 60

/-- `SERVICES_NODE_NETWORK`. -/
def servicesNodeNetwork : UInt64 := 0x01

/-- `SERVICES_NODE_BLOOM`. -/
def servicesNodeBloom : UInt64 := 0x04

/-- `SERVICES_NODE_BCASH`. -/
def servicesNodeBcash : UInt64 := 0x20

/-- What a peer has told about itself, and how its ping time compares. -/
structure Handshake where
  services : UInt64
  version : UInt32
  /-- `BRPeerPingTime(p) < BRPeerPingTime(peer)` -/
  fasterThan : BRPeer → BRPeer → Bool

/-- The call of a callback, where there is one. -/
def callbackEvents (callback : Option ℕ) (error : ℕ) : List ManagerEvent :=
  (callback.map (fun c => ManagerEvent.published c error)).toList

/-! ## The publish list -/

namespace PublishLists

/-- Set the callbacks of the entries for `txHash` to `NULL`. -/
def silence (txHash : UInt256) :
    List BRPublishedTx → List UInt256 → List BRPublishedTx
  | e :: publishedTx, h :: publishedTxHashes =>
      (if h = txHash then { e with callback := none } else e) ::
        silence txHash publishedTx publishedTxHashes
  | publishedTx, _ => publishedTx

/-- The entries for `txHash`, from the front. -/
def named (l : PublishLists) (txHash : UInt256) : List BRPublishedTx :=
  ((l.publishedTx.zip l.publishedTxHashes).filter (fun p => p.2 = txHash)).map Prod.fst

/-- The callback that a scan from the end finds for `txHash`. -/
def callbackFor (l : PublishLists) (txHash : UInt256) : Option ℕ :=
  (l.named txHash).head?.bind BRPublishedTx.callback

/-- `_BRPeerManagerAddTxToPublishList` with a bound on the recursion depth. -/
def addTxAux (allTx : List BRTransaction) :
    ℕ → PublishLists → BRTransaction → Option ℕ → PublishLists
  | 0, l, _, _ => l
  | fuel + 1, l, tx, callback =>
      if tx.isUnconfirmed then
        if l.publishedTx.any (fun e => e.tx.txHash = tx.txHash) then l
        else
          tx.inputs.foldl
            (fun l i =>
              match getTx allTx i.txHash with
              | none => l
              | some t => addTxAux allTx fuel l t none)
            ⟨l.publishedTx ++ [⟨tx, callback⟩], l.publishedTxHashes ++ [tx.txHash]⟩
      else l

/-- `_BRPeerManagerAddTxToPublishList`.  Each call of the recursion lists a
transaction of the wallet that was not listed, so this depth is enough. -/
def addTx (allTx : List BRTransaction) (l : PublishLists) (tx : BRTransaction)
    (callback : Option ℕ) : PublishLists :=
  addTxAux allTx (allTx.length + 2) l tx callback

/-- The locals of `_peerRequestedTx`. -/
structure Request where
  tx : Option BRTransaction := none
  callback : Option ℕ := none
  error : ℕ := 0

/-- The loop of `_peerRequestedTx`, which comes from the end. -/
def requestLoop (env : Env) (w : BRWallet) (txHash : UInt256) :
    List BRPublishedTx → List UInt256 → Except ManagerFault (PublishLists × Request)
  | e :: publishedTx, h :: publishedTxHashes => do
      let (l, r) ← requestLoop env w txHash publishedTx publishedTxHashes
      if h = txHash then do
        let valid ← callWallet (w.transactionIsValid env.fuel e.tx)
        if valid then
          pure (⟨{ e with callback := none } :: l.publishedTx, h :: l.publishedTxHashes⟩,
            { r with tx := some e.tx, callback := e.callback })
        else
          pure (l,
            { tx := if w.knowsTx txHash then some e.tx else none
              callback := e.callback
              error := einval })
      else pure (⟨e :: l.publishedTx, h :: l.publishedTxHashes⟩, r)
  | publishedTx, publishedTxHashes => pure (⟨publishedTx, publishedTxHashes⟩, {})

end PublishLists

namespace BRPeerManager

/-- List a transaction and its unconfirmed inputs. -/
def addTxToPublishList (m : BRPeerManager) (tx : BRTransaction) (callback : Option ℕ) :
    BRPeerManager :=
  { m with toPublishLists := m.toPublishLists.addTx m.wallet.allTx tx callback }

/-- A published transaction is known to a peer: the manager and the new number
of such peers. -/
def answerPublished (m : BRPeerManager) (peer : BRPeer) (txHash : UInt256) :
    BRPeerManager × ℕ :=
  if m.named txHash = [] then (m, 0)
  else
    let relays := BRTxPeerList.addPeer m.txRelays txHash peer
    ({ m with
        publishedTx := PublishLists.silence txHash m.publishedTx m.publishedTxHashes
        txRelays := relays.1 },
      relays.2)

/-- `BRWalletRegisterTransaction`. -/
def register (env : Env) (m : BRPeerManager) (tx : BRTransaction) :
    Except ManagerFault (BRPeerManager × List ManagerEvent × Bool) := do
  let (w, es, isWalletTx) ← callWallet (m.wallet.registerTransaction env.fuel env.now tx)
  pure ({ m with wallet := w }, es.map .wallet, isWalletTx)

/-- The transaction after it has been registered. -/
def registered (m : BRPeerManager) (tx : BRTransaction) (isWalletTx : Bool) :
    Option BRTransaction :=
  if isWalletTx then getTx m.wallet.allTx tx.txHash else some tx

/-- Keep track of how many peers have a transaction, which is only needed after
syncing is complete. -/
def countRelay (m : BRPeerManager) (peer : BRPeer) (txHash : UInt256) (relayCount : ℕ) :
    BRPeerManager × ℕ :=
  if m.syncStartHeight = 0 then
    let relays := BRTxPeerList.addPeer m.txRelays txHash peer
    ({ m with txRelays := relays.1 }, relays.2)
  else (m, relayCount)

/-- A peer has sent what it was asked for. -/
def rmRequest (m : BRPeerManager) (peer : BRPeer) (txHash : UInt256) : BRPeerManager :=
  { m with txRequests := (BRTxPeerList.removePeer m.txRequests txHash peer).1 }

/-- Set the timestamp when a transaction is verified. -/
def stampVerified (env : Env) (m : BRPeerManager) (tx : Option BRTransaction)
    (relayCount : ℕ) : Except ManagerFault (BRPeerManager × List ManagerEvent) :=
  match tx with
  | none => pure (m, [])
  | some tx =>
      if m.maxConnectCount ≤ relayCount ∧ tx.blockHeight = txUnconfirmed ∧ tx.timestamp = 0 then
        m.updateTx env [tx.txHash] txUnconfirmed (UInt32.ofNat env.now)
      else pure (m, [])

/-- Is it a valid transaction that sends from the wallet? -/
def sendsValid (env : Env) (m : BRPeerManager) (tx : BRTransaction) :
    Except ManagerFault Bool :=
  if 0 < m.wallet.amountSentByTx tx then
    callWallet (m.wallet.transactionIsValid env.fuel tx)
  else pure false

/-- Is the address missing from the filter? -/
def missedAddr (env : Env) (filter : BRBloomFilter) (address : Address) : Bool :=
  (env.addressHash160 address).any (fun hash =>
    ! filter.containsData env.murmur3 (LittleEndian.bytes 20 hash.toNat))

/-- Reset the filter unless it matches the next unused addresses. -/
def checkFilter (env : Env) (m : BRPeerManager) : Except ManagerFault BRPeerManager :=
  match m.bloomFilter with
  | none => pure m
  | some filter => do
      let (w, external) ←
        callWallet (m.wallet.unusedAddrs env.fuel sequenceGapLimitExternal false)
      let (w, internal) ← callWallet (w.unusedAddrs env.fuel sequenceGapLimitInternal true)
      pure
        { m with
          wallet := w
          bloomFilter :=
            if (external ++ internal).any (missedAddr env filter) then none else some filter }

/-- What a relayed transaction of the wallet changes. -/
def trackWalletTx (env : Env) (m : BRPeerManager) (peer : BRPeer) (tx : BRTransaction)
    (relayCount : ℕ) : Except ManagerFault (BRPeerManager × ℕ) := do
  let sends ← m.sendsValid env tx
  let (m, relayCount) :=
    (if sends then m.addTxToPublishList tx none else m).countRelay peer tx.txHash relayCount
  let m ← (m.rmRequest peer tx.txHash).checkFilter env
  pure (m, relayCount)

/-- The part of `_peerRelayedTx` behind the registration. -/
def relayRegistered (env : Env) (m : BRPeerManager) (peer : BRPeer)
    (tx : Option BRTransaction) (isWalletTx : Bool) (relayCount : ℕ) :
    Except ManagerFault (BRPeerManager × List ManagerEvent) :=
  match tx, isWalletTx with
  | some tx, true => do
      let (m, relayCount) ← m.trackWalletTx env peer tx relayCount
      m.stampVerified env (some tx) relayCount
  | tx, _ => m.stampVerified env tx relayCount

/-- `_peerRelayedTx`. -/
def relayedTx (env : Env) (m : BRPeerManager) (peer : BRPeer) (tx : BRTransaction) :
    Except ManagerFault (BRPeerManager × List ManagerEvent) :=
  let callback := m.callbackFor tx.txHash
  let (m, relayCount) := m.answerPublished peer tx.txHash
  if m.syncStartHeight = 0 ∨ m.wallet.containsTx tx then do
    let (m, es, isWalletTx) ← m.register env tx
    let (m, es') ← m.relayRegistered env peer (m.registered tx isWalletTx) isWalletTx relayCount
    pure (m, es ++ es' ++ callbackEvents callback 0)
  else pure (m, callbackEvents callback 0)

/-- `_peerHasTx`. -/
def hasTx (env : Env) (m : BRPeerManager) (peer : BRPeer) (txHash : UInt256) :
    Except ManagerFault (BRPeerManager × List ManagerEvent) :=
  let callback := m.callbackFor txHash
  let tx := (getTx m.wallet.allTx txHash).or
    ((m.named txHash).getLast?.map BRPublishedTx.tx)
  let (m, relayCount) := m.answerPublished peer txHash
  match tx with
  | none => pure (m, callbackEvents callback 0)
  | some tx => do
      let (m, es, isWalletTx) ← m.register env tx
      let (m, relayCount) := m.countRelay peer txHash relayCount
      let (m, es') ← m.stampVerified env (m.registered tx isWalletTx) relayCount
      pure (m.rmRequest peer txHash, es ++ es' ++ callbackEvents callback 0)

/-- `_peerRejectedTx`. -/
def rejectedTx (env : Env) (m : BRPeerManager) (peer : BRPeer) (txHash : UInt256) :
    Except ManagerFault (BRPeerManager × List ManagerEvent) :=
  let m := m.rmRequest peer txHash
  match getTx m.wallet.allTx txHash with
  | none => pure (m, [])
  | some tx =>
      let relays := BRTxPeerList.removePeer m.txRelays txHash peer
      let m : BRPeerManager := { m with txRelays := relays.1 }
      -- timestamp 0 marks the transaction as unverified
      if relays.2 ∧ tx.blockHeight = txUnconfirmed then m.updateTx env [txHash] txUnconfirmed 0
      else pure (m, [])

/-- `_peerDataNotfound`. -/
def dataNotfound (m : BRPeerManager) (peer : BRPeer) (txHashes : List UInt256) :
    BRPeerManager :=
  txHashes.foldl
    (fun m txHash =>
      BRPeerManager.rmRequest
        { m with txRelays := (BRTxPeerList.removePeer m.txRelays txHash peer).1 } peer txHash) m

/-- `_peerRequestedTx`. -/
def requestedTx (env : Env) (m : BRPeerManager) (peer : BRPeer) (txHash : UInt256) :
    Except ManagerFault (BRPeerManager × List ManagerEvent) := do
  let (l, r) ← PublishLists.requestLoop env m.wallet txHash m.publishedTx m.publishedTxHashes
  let m : BRPeerManager := { m with toPublishLists := l }
  match r.tx with
  | some tx =>
      if r.error = 0 then do
        let (m, es, _) ←
          BRPeerManager.register env
            { m with txRelays := (BRTxPeerList.addPeer m.txRelays txHash peer).1 } tx
        pure (m, es ++ callbackEvents r.callback r.error)
      else pure (m, callbackEvents r.callback r.error)
  | none => pure (m, callbackEvents r.callback r.error)

/-! ## Requests for unrelayed transactions -/

/-- Ask `peer` for one transaction; the number counts what has been asked for. -/
def requestTx (m : BRPeerManager) (peer : BRPeer) (r : List BRTxPeerList × ℕ)
    (txHash : UInt256) : List BRTxPeerList × ℕ :=
  if BRTxPeerList.hasPeer m.txRelays txHash peer ∨ BRTxPeerList.hasPeer r.1 txHash peer then r
  else ((BRTxPeerList.addPeer r.1 txHash peer).1, r.2 + 1)

/-- Note that a peer has `PEER_FLAG_SYNCED`. -/
def setSynced (m : BRPeerManager) (peer : BRPeer) : BRPeerManager :=
  { m with synced := m.synced.insert peer }

/-- `_BRPeerManagerRequestUnrelayedTx`. -/
def requestUnrelayedTx (m : BRPeerManager) (peer : BRPeer) : BRPeerManager :=
  let r :=
    ((m.wallet.txUnconfirmedBefore txUnconfirmed).map (·.txHash)).foldl
      (m.requestTx peer) (m.txRequests, 0)
  let m : BRPeerManager := { m with txRequests := r.1 }
  if r.2 = 0 then m.setSynced peer else m

/-- `_mempoolDone`. -/
def mempoolDone (m : BRPeerManager) (peer : BRPeer) (success : Bool) : BRPeerManager :=
  if success then
    (if 0 < m.syncStartHeight then m.syncStopped else m).requestUnrelayedTx peer
  else m

/-- `_loadBloomFilterDone`. -/
def loadBloomFilterDone (m : BRPeerManager) (peer : BRPeer) (success : Bool) : BRPeerManager :=
  if ¬ success ∧ some peer = m.downloadPeer then m.syncStopped else m

/-- Is a callback waiting for the transaction? -/
def isPublishing (m : BRPeerManager) (txHash : UInt256) : Bool :=
  m.publishedTx.any (fun e => e.tx.txHash = txHash ∧ e.callback ≠ none)

/-- One transaction of `_requestUnrelayedTxGetdataDone`. -/
def dropUnrelayed (env : Env) (m : BRPeerManager) (tx : BRTransaction) :
    Except ManagerFault (BRPeerManager × List ManagerEvent) :=
  if m.isPublishing tx.txHash then pure (m, [])
  else if BRTxPeerList.count m.txRelays tx.txHash = 0 ∧
      BRTxPeerList.count m.txRequests tx.txHash = 0 then do
    let (w, es) ← callWallet (BRWallet.removeTransaction env.now env.fuel m.wallet tx.txHash)
    pure ({ m with wallet := w }, es.map .wallet)
  else if BRTxPeerList.count m.txRelays tx.txHash < m.maxConnectCount then
    m.updateTx env [tx.txHash] txUnconfirmed 0
  else pure (m, [])

/-- The number of connected peers, if all have relayed their mempools. -/
def syncedCount (env : Env) (m : BRPeerManager) : ℕ :=
  if m.connectedPeers.all (fun p => p ∈ m.synced) then (m.onlinePeers env).length else 0

/-- `_requestUnrelayedTxGetdataDone`. -/
def requestUnrelayedTxGetdataDone (env : Env) (m : BRPeerManager) (peer : BRPeer)
    (success : Bool) : Except ManagerFault (BRPeerManager × List ManagerEvent) :=
  let m := if success then m.setSynced peer else m
  if m.maxConnectCount ≤ m.syncedCount env then
    Machine.run (dropUnrelayed env) m
      ((m.wallet.txUnconfirmedBefore txUnconfirmed).take 10000)
  else pure (m, [])

/-! ## Filter updates -/

/-- `_updateFilterPingDone`. -/
def updateFilterPingDone (env : Env) (m : BRPeerManager) (success : Bool) :
    Except ManagerFault BRPeerManager :=
  if success then do
    let m : BRPeerManager := { m with bloomFilter := none }
    let lastBlock ← m.last
    if lastBlock.height < m.estimatedHeight then
      -- while syncing, only the download peer is updated
      match m.downloadPeer with
      | some p => m.loadBloomFilter env p
      | none => pure m
    else (m.onlinePeers env).foldlM (loadBloomFilter env) m
  else pure m

/-! ## Connections -/

/-- Prefer a peer that is ahead, or as far and faster. -/
def betterPeer (env : Env) (hs : Handshake) (peer p : BRPeer) : BRPeer :=
  if (hs.fasterThan p peer ∧ env.lastblock peer ≤ env.lastblock p) ∨
      env.lastblock peer < env.lastblock p then p
  else peer

/-- The peer with a new handshake is of use. -/
def accepts (env : Env) (hs : Handshake) (lastBlock : ChainBlock) (peer : BRPeer) : Bool :=
  ¬ env.lastblock peer + 10 < lastBlock.height ∧
    ¬ hs.services &&& servicesNodeBcash = servicesNodeBcash ∧
    ¬ (70011 ≤ hs.version ∧ hs.services &&& servicesNodeBloom = 0)

/-- Stick with the existing download peer? -/
def keepsDownloadPeer (env : Env) (m : BRPeerManager) (lastBlock : ChainBlock) (peer : BRPeer) :
    Bool :=
  m.downloadPeer.any (fun p =>
    env.lastblock peer ≤ env.lastblock p ∨ env.lastblock peer ≤ lastBlock.height)

/-- Take a new download peer. -/
def chooseDownloadPeer (env : Env) (m : BRPeerManager) (hs : Handshake) (lastBlock : ChainBlock)
    (peer : BRPeer) : Except ManagerFault BRPeerManager := do
  let peer := (m.onlinePeers env).foldl (betterPeer env hs) peer
  let m ←
    BRPeerManager.loadBloomFilter env
      { m with
        downloadPeer := some peer
        isConnected := true
        estimatedHeight := env.lastblock peer } peer
  if lastBlock.height < env.lastblock peer then pure m
  else BRPeerManager.loadMempools env { m with connectFailureCount := 0 }

/-- `_peerConnected`. -/
def peerConnected (env : Env) (m : BRPeerManager) (peer : BRPeer) (hs : Handshake) :
    Except ManagerFault BRPeerManager :=
  if hs.services &&& servicesNodeNetwork = 0 then pure m
  else do
    let lastBlock ← m.last
    if accepts env hs lastBlock peer then
      if m.keepsDownloadPeer env lastBlock peer then
        if env.lastblock peer ≤ lastBlock.height then
          BRPeerManager.loadBloomFilter env { m with connectFailureCount := 0 } peer
        else pure m
      else m.chooseDownloadPeer env hs lastBlock peer
    else pure m

/-- The peer is no longer listed for any transaction. -/
def rmPeer (peer : BRPeer) (list : List BRTxPeerList) : List BRTxPeerList :=
  list.map (fun e => { e with peers := e.peers.filter (fun p => p ≠ peer) })

/-- What a timeout means for the transactions that wait for their callback. -/
def timeoutError (m : BRPeerManager) (peer : BRPeer) (error : ℕ) : ℕ :=
  if error = etimedout ∧ (some peer ≠ m.downloadPeer ∨ m.syncStartHeight = 0 ∨
      m.connectedPeers.length = 1) then etimedout
  else 0

/-- A timeout or another error that is not one of the protocol is counted. -/
def countFailure (m : BRPeerManager) (error : ℕ) : BRPeerManager :=
  if error ≠ 0 ∧ error ≠ eproto then
    { m with connectFailureCount := m.connectFailureCount + 1 }
  else m

/-- Without a download peer there is no connection. -/
def leaveDownload (m : BRPeerManager) (peer : BRPeer) : BRPeerManager :=
  if some peer = m.downloadPeer then
    { m with
      isConnected := false
      downloadPeer := none
      connectFailureCount := min m.connectFailureCount maxConnectFailures }
  else m

/-- There is no connection, and there have been too many failures. -/
def hasFailed (m : BRPeerManager) : Bool :=
  ¬ m.isConnected ∧ m.connectFailureCount = maxConnectFailures

/-- On an error, the entries that wait for their callback are removed; the
callbacks come from the end. -/
def cancelPublished (m : BRPeerManager) (error : ℕ) : BRPeerManager × List ManagerEvent :=
  if error = 0 then (m, [])
  else
    ({ m with
        toPublishLists :=
          .rm (fun e => e.callback ≠ none) m.publishedTx m.publishedTxHashes },
      (m.publishedTx.reverse.filterMap BRPublishedTx.callback).map (.published · error))

/-- `_peerDisconnected`, up to the attempt to connect to another peer. -/
def peerDisconnected (m : BRPeerManager) (peer : BRPeer) (error : ℕ) :
    BRPeerManager × List ManagerEvent :=
  let txError := m.timeoutError peer error
  let m := (m.countFailure error).leaveDownload peer
  let txError := if m.hasFailed then enotconn else txError
  let cancelled := (if m.hasFailed then m.syncStopped else m).cancelPublished txError
  ({ cancelled.1 with
      txRelays := rmPeer peer m.txRelays
      connectedPeers := KeyedList.eraseLast id m.connectedPeers peer
      synced := m.synced.filter (fun p => p ≠ peer) },
    cancelled.2)

/-- The first part of `BRPeerManagerConnect`. -/
def beginConnect (m : BRPeerManager) : Except ManagerFault BRPeerManager :=
  BRPeerManager.startSync
    (if maxConnectFailures ≤ m.connectFailureCount then { m with connectFailureCount := 0 } else m)

/-- The second part of `BRPeerManagerConnect`, drawing the given peers. -/
def dial (m : BRPeerManager) (peers : List BRPeer) : BRPeerManager :=
  let m : BRPeerManager :=
    { m with connectedPeers := peers.foldl (pickPeer m.maxConnectCount) m.connectedPeers }
  if m.connectedPeers = [] then m.syncStopped else m

/-- `BRPeerManagerRescan`, up to its call of `BRPeerManagerConnect`. -/
def beginRescan (env : Env) (m : BRPeerManager) : BRPeerManager :=
  if m.isConnected then
    match rescanCheckpoint env.checkpointArray m.earliestKeyTime with
    | none => { m with syncStartHeight := 0 }
    | some c => { m with lastBlock := m.blocks.get c.hash, syncStartHeight := 0 }
  else m

/-- `BRPeerManagerDisconnect`, up to the disconnected events it waits for. -/
def disconnect (m : BRPeerManager) : BRPeerManager :=
  if m.connectedPeers = [] then m else { m with connectFailureCount := maxConnectFailures }

/-- `BRPeerManagerSetFixedPeer`, behind its call of `BRPeerManagerDisconnect`. -/
def setFixedPeer (m : BRPeerManager) (address : BitVec 128) : BRPeerManager :=
  { m with maxConnectCount := if address = 0 then peerMaxConnections else 1 }

/-! ## Publishing -/

/-- Without a connection, is there no hope of one? -/
def isUnreachable (env : Env) (m : BRPeerManager) : Bool :=
  ¬ m.isConnected ∧ (maxConnectFailures ≤ m.connectFailureCount ∨ ¬ env.networkIsReachable)

/-- The part of `BRPeerManagerPublishTx` that lists the transaction. -/
def publishListed (env : Env) (m : BRPeerManager) (tx : BRTransaction) (callback : Option ℕ) :
    BRPeerManager :=
  m.addTxToPublishList (tx.setBlock tx.blockHeight (UInt32.ofNat env.now)) callback

/-- `BRPeerManagerPublishTx`, where nothing happens while it gives up the lock.
In front of this, debug builds assert that the transaction is signed. -/
def publishTx (env : Env) (m : BRPeerManager) (tx : BRTransaction) (callback : Option ℕ) :
    BRPeerManager × List ManagerEvent :=
  if ! tx.isSigned then (m, callbackEvents callback einval)
  else if m.isUnreachable env then (m, callbackEvents callback enotconn)
  else (m.publishListed env tx callback, [])

/-- `BRPeerManagerRelayCount`. -/
def relayCount (m : BRPeerManager) (txHash : UInt256) : ℕ :=
  BRTxPeerList.count m.txRelays txHash

end BRPeerManager

end BreadwalletCore
