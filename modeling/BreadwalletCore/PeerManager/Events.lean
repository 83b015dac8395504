import BreadwalletCore.PeerManager.Handlers

/-!
# Events of the peer manager

The handlers as the steps of one machine.  Events of several peers and of the
application come in any order; a peer has events while it is connected.

What events do to the transaction lists is made of moves, each of which changes
one entry or calls one callback.
-/

namespace BreadwalletCore

open Machine

/-! ## The machine -/

/-- An event: a callback of a peer, a pong, or a call of the application. -/
inductive ManagerCall where
  | beginConnect
  | dial (peers : List BRPeer)
  | peerConnected (peer : BRPeer) (hs : Handshake)
  | peerDisconnected (peer : BRPeer) (error : ℕ)
  | relayedTx (peer : BRPeer) (tx : BRTransaction)
  | hasTx (peer : BRPeer) (txHash : UInt256)
  | rejectedTx (peer : BRPeer) (txHash : UInt256)
  | relayedBlock (peer : BRPeer) (block : ChainBlock)
  | dataNotfound (peer : BRPeer) (txHashes : List UInt256)
  | requestedTx (peer : BRPeer) (txHash : UInt256)
  | mempoolDone (peer : BRPeer) (success : Bool)
  | loadBloomFilterDone (peer : BRPeer) (success : Bool)
  | requestUnrelayedTxGetdataDone (peer : BRPeer) (success : Bool)
  | publishTxInvDone (peer : BRPeer)
  | updateFilterPingDone (peer : BRPeer) (success : Bool)
  | beginRescan
  | disconnect
  | setFixedPeer (address : BitVec 128)
  | publishTx (tx : BRTransaction) (callback : Option ℕ)
  /-- `BRPeerManagerPublishTx` behind the unlocked part, where other events came
  in between. -/
  | publishListed (tx : BRTransaction) (callback : Option ℕ)
  /-- the application uses its wallet -/
  | wallet (c : Call)

/-- An event, with what its handler sees. -/
structure ManagerInput where
  env : Env
  call : ManagerCall

namespace BRPeerManager

/-- One event. -/
def step (m : BRPeerManager) (i : ManagerInput) :
    Except ManagerFault (BRPeerManager × List ManagerEvent) :=
  match i.call with
  | .beginConnect => do
      let m ← m.beginConnect
      pure (m, [])
  | .dial peers => pure (m.dial peers, [])
  | .peerConnected peer hs => do
      let m ← m.peerConnected i.env peer hs
      pure (m, [])
  | .peerDisconnected peer error => pure (m.peerDisconnected peer error)
  | .relayedTx peer tx => m.relayedTx i.env peer tx
  | .hasTx peer txHash => m.hasTx i.env peer txHash
  | .rejectedTx peer txHash => m.rejectedTx i.env peer txHash
  | .relayedBlock peer block => m.relayedBlock i.env peer block
  | .dataNotfound peer txHashes => pure (m.dataNotfound peer txHashes, [])
  | .requestedTx peer txHash => m.requestedTx i.env peer txHash
  | .mempoolDone peer success => pure (m.mempoolDone peer success, [])
  | .loadBloomFilterDone peer success => pure (m.loadBloomFilterDone peer success, [])
  | .requestUnrelayedTxGetdataDone peer success =>
      m.requestUnrelayedTxGetdataDone i.env peer success
  | .publishTxInvDone peer => pure (m.requestUnrelayedTx peer, [])
  | .updateFilterPingDone _ success => do
      let m ← m.updateFilterPingDone i.env success
      pure (m, [])
  | .beginRescan => pure (m.beginRescan i.env, [])
  | .disconnect => pure (m.disconnect, [])
  | .setFixedPeer address => pure (m.setFixedPeer address, [])
  | .publishTx tx callback => pure (m.publishTx i.env tx callback)
  | .publishListed tx callback => pure (m.publishListed i.env tx callback, [])
  | .wallet c => do
      let (w, es) ← callWallet (BreadwalletCore.step i.env.fuel m.wallet c)
      pure ({ m with wallet := w }, es.map .wallet)

/-- A sequence of events. -/
abbrev runEvents (m : BRPeerManager) (is : List ManagerInput) :
    Except ManagerFault (BRPeerManager × List ManagerEvent) :=
  Machine.run step m is

end BRPeerManager

/-- The peer whose event it is. -/
def ManagerCall.peer : ManagerCall → Option BRPeer
  | .peerConnected peer _ => some peer
  | .peerDisconnected peer _ => some peer
  | .relayedTx peer _ => some peer
  | .hasTx peer _ => some peer
  | .rejectedTx peer _ => some peer
  | .relayedBlock peer _ => some peer
  | .dataNotfound peer _ => some peer
  | .requestedTx peer _ => some peer
  | .mempoolDone peer _ => some peer
  | .loadBloomFilterDone peer _ => some peer
  | .requestUnrelayedTxGetdataDone peer _ => some peer
  | .publishTxInvDone peer => some peer
  | .updateFilterPingDone peer _ => some peer
  | _ => none

/-- Peers have events while they are connected. -/
def BRPeerManager.Occurs (m : BRPeerManager) (i : ManagerInput) : Prop :=
  ∀ peer, i.call.peer = some peer → peer ∈ m.connectedPeers

/-- The callback that a call of `BRPeerManagerPublishTx` is given. -/
def ManagerCall.given : ManagerCall → List ℕ
  | .publishTx _ callback => callback.toList
  | .publishListed _ callback => callback.toList
  | _ => []

/-- The callbacks called. -/
def fired (es : List ManagerEvent) : List ℕ :=
  es.filterMap (fun e =>
    match e with
    | .published callback _ => some callback
    | _ => none)

@[simp] theorem fired_append
    (es es' : List ManagerEvent) :
    fired (es ++ es') = fired es ++ fired es' :=
  List.filterMap_append

@[simp] theorem fired_nil :
    fired [] = [] := by
  rfl

@[simp] theorem fired_wallet
    (es : List Event) :
    fired (es.map .wallet) = [] := by
  induction es with
  | nil =>
      rfl
  | cons e es ih =>
      exact ih

@[simp] theorem fired_callbackEvents
    (callback : Option ℕ) (error : ℕ) :
    fired (callbackEvents callback error) = callback.toList := by
  cases callback <;> rfl

/-! ## Moves -/

/-- The lists of published and of relayed transactions. -/
structure TxLists extends PublishLists, RelayLists

/-- The callbacks that are waiting. -/
def waiting (publishedTx : List BRPublishedTx) : List ℕ :=
  publishedTx.filterMap BRPublishedTx.callback

/-- No callback waits for the transaction. -/
def PublishLists.Quiet (l : PublishLists) (txHash : UInt256) : Prop :=
  ∀ e ∈ l.publishedTx, e.tx.txHash = txHash → e.callback = none

/-- One change of the lists, with the callbacks that are given and those that
are called.  `Live` holds of the connected peers.  A strict sequence of moves
loses no callback. -/
inductive Move (Live : BRPeer → Prop) (strict : Prop) (l : TxLists) :
    List ℕ → List ℕ → TxLists → Prop where
  | relay {peer : BRPeer} (txHash : UInt256) :
      Live peer →
      Move Live strict l [] []
        { l with txRelays := (BRTxPeerList.addPeer l.txRelays txHash peer).1 }
  | request {peer : BRPeer} (txHash : UInt256) :
      Live peer →
      Move Live strict l [] []
        { l with txRequests := (BRTxPeerList.addPeer l.txRequests txHash peer).1 }
  | rmRelay (peer : BRPeer) (txHash : UInt256) :
      Move Live strict l [] []
        { l with txRelays := (BRTxPeerList.removePeer l.txRelays txHash peer).1 }
  | rmRequest (peer : BRPeer) (txHash : UInt256) :
      Move Live strict l [] []
        { l with txRequests := (BRTxPeerList.removePeer l.txRequests txHash peer).1 }
  | leave (peer : BRPeer) :
      Move Live strict l [] []
        { l with txRelays := BRPeerManager.rmPeer peer l.txRelays }
  | confirm (txHash : UInt256) :
      (strict → l.Quiet txHash) →
      Move Live strict l [] []
        { l with
          toPublishLists :=
            .rm (fun e => txHash = e.tx.txHash) l.publishedTx l.publishedTxHashes
          txRelays := KeyedList.remove (·.txHash) l.txRelays txHash }
  | answer (txHash : UInt256) :
      Move Live strict l [] (l.callbackFor txHash).toList
        { l with
          publishedTx := PublishLists.silence txHash l.publishedTx l.publishedTxHashes }
  | reject (txHash : UInt256) :
      Move Live strict l [] (l.callbackFor txHash).toList
        { l with
          toPublishLists :=
            .rm (fun e => txHash = e.tx.txHash) l.publishedTx l.publishedTxHashes }
  | list (tx : BRTransaction) (callback : Option ℕ) :
      (∀ e ∈ l.publishedTx, e.tx.txHash ≠ tx.txHash) →
      Move Live strict l callback.toList []
        { l with
          publishedTx := l.publishedTx ++ [⟨tx, callback⟩]
          publishedTxHashes := l.publishedTxHashes ++ [tx.txHash] }
  | refuse (callback : Option ℕ) :
      Move Live strict l callback.toList callback.toList l
  | lose (callback : Option ℕ) :
      (strict → callback = none) →
      Move Live strict l callback.toList [] l
  | cancel :
      Move Live strict l [] (waiting l.publishedTx).reverse
        { l with
          toPublishLists :=
            .rm (fun e => e.callback ≠ none) l.publishedTx l.publishedTxHashes }

/-- A sequence of moves. -/
inductive Moves (Live : BRPeer → Prop) (strict : Prop) :
    TxLists → List ℕ → List ℕ → TxLists → Prop where
  | nil (l : TxLists) : Moves Live strict l [] [] l
  | cons {l l₁ l' : TxLists} {given given' called called' : List ℕ} :
      Move Live strict l given called l₁ → Moves Live strict l₁ given' called' l' →
      Moves Live strict l (given ++ given') (called ++ called') l'

namespace Moves

variable {Live : BRPeer → Prop} {strict strict' : Prop} {l l₁ l' : TxLists}
variable {given given' called called' : List ℕ}

theorem single
    (h : Move Live strict l given called l') :
    Moves Live strict l given called l' := by
  have hm := Moves.cons h (.nil l')
  rw [List.append_nil, List.append_nil] at hm
  exact hm

theorem trans
    (h₁ : Moves Live strict l given called l₁)
    (h₂ : Moves Live strict l₁ given' called' l') :
    Moves Live strict l (given ++ given') (called ++ called') l' := by
  induction h₁ with
  | nil l =>
      exact h₂
  | cons hmove _ ih =>
      rw [List.append_assoc, List.append_assoc]
      exact .cons hmove (ih h₂)

/-- A loop that changes the publish list. -/
theorem foldl
    {α : Type} {f : PublishLists → α → PublishLists} {p p₁ : PublishLists} {r : RelayLists}
    (h : Moves Live strict ⟨p, r⟩ given [] ⟨p₁, r⟩)
    (hf : ∀ p a, Moves Live strict ⟨p, r⟩ [] [] ⟨f p a, r⟩)
    (as : List α) :
    Moves Live strict ⟨p, r⟩ given [] ⟨as.foldl f p₁, r⟩ := by
  induction as generalizing p₁ with
  | nil =>
      exact h
  | cons a as ih =>
      have hstep := h.trans (hf p₁ a)
      rw [List.append_nil] at hstep
      exact ih hstep

theorem weaken
    (himp : strict' → strict)
    (h : Moves Live strict l given called l') :
    Moves Live strict' l given called l' := by
  induction h with
  | nil l =>
      exact .nil l
  | cons hmove _ ih =>
      refine .cons ?_ ih
      cases hmove with
      | relay txHash hlive =>
          exact .relay txHash hlive
      | request txHash hlive =>
          exact .request txHash hlive
      | rmRelay =>
          exact .rmRelay _ _
      | rmRequest =>
          exact .rmRequest _ _
      | leave =>
          exact .leave _
      | confirm _ hquiet =>
          exact .confirm _ (fun h => hquiet (himp h))
      | answer =>
          exact .answer _
      | reject =>
          exact .reject _
      | list _ _ hnew =>
          exact .list _ _ hnew
      | refuse =>
          exact .refuse _
      | lose _ hlose =>
          exact .lose _ (fun h => hlose (himp h))
      | cancel =>
          exact .cancel

end Moves

end BreadwalletCore
