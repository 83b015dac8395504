import BreadwalletCore.PeerManager.BlockTree
import BreadwalletCore.PeerManager.Events

/-!
# What an event may do

Each handler changes the transaction lists by a sequence of moves.  The rest of
what it may do is a frame: which peers are connected, and which blocks are
stored.  `step_effect` says this for all events.
-/

namespace BreadwalletCore

open Machine

namespace BRPeerManager

/-- The transaction lists. -/
def txLists (m : BRPeerManager) : TxLists :=
  ⟨m.toPublishLists, m.toRelayLists⟩

/-- The lists have changed by moves of connected peers, and nobody has come or
gone. -/
structure Tracks (strict : Prop) (given called : List ℕ) (m m' : BRPeerManager) : Prop where
  moves : Moves (· ∈ m.connectedPeers) strict m.txLists given called m'.txLists
  connectedPeers : m'.connectedPeers = m.connectedPeers
  earliestKeyTime : m'.earliestKeyTime = m.earliestKeyTime

/-- The blocks have been left alone as well. -/
structure Handles (strict : Prop) (given called : List ℕ) (m m' : BRPeerManager) : Prop
    extends Tracks strict given called m m' where
  store : m.toBlockStore.Cleared m'.toBlockStore

variable {strict : Prop} {given given' called called' : List ℕ} {env : Env}
variable {m m₁ m' : BRPeerManager} {peer : BRPeer} {tx : BRTransaction} {txHash : UInt256}
variable {es : List ManagerEvent} {callback : Option ℕ} {success : Bool}

theorem Tracks.trans
    (h₁ : Tracks strict given called m m₁)
    (h₂ : Tracks strict given' called' m₁ m') :
    Tracks strict (given ++ given') (called ++ called') m m' where
  moves := by
    refine h₁.moves.trans ?_
    have hlive := h₂.moves
    rw [h₁.connectedPeers] at hlive
    exact hlive
  connectedPeers := h₂.connectedPeers.trans h₁.connectedPeers
  earliestKeyTime := h₂.earliestKeyTime.trans h₁.earliestKeyTime

theorem Handles.refl
    (strict : Prop) (m : BRPeerManager) :
    Handles strict [] [] m m where
  moves := .nil _
  connectedPeers := rfl
  earliestKeyTime := rfl
  store := .refl _

theorem Handles.trans
    (h₁ : Handles strict given called m m₁)
    (h₂ : Handles strict given' called' m₁ m') :
    Handles strict (given ++ given') (called ++ called') m m' where
  toTracks := h₁.toTracks.trans h₂.toTracks
  store := h₁.store.trans h₂.store

/-- An event that changes none of this. -/
theorem Handles.other
    (hlists : m'.txLists = m.txLists)
    (hpeers : m'.connectedPeers = m.connectedPeers)
    (hstore : m.toBlockStore.Cleared m'.toBlockStore)
    (htime : m'.earliestKeyTime = m.earliestKeyTime) :
    Handles strict [] [] m m' where
  moves := by
    rw [hlists]
    exact .nil _
  connectedPeers := hpeers
  earliestKeyTime := htime
  store := hstore

theorem Handles.move
    (hmoves : Moves (· ∈ m.connectedPeers) strict m.txLists given called m'.txLists)
    (hpeers : m'.connectedPeers = m.connectedPeers)
    (hstore : m'.toBlockStore = m.toBlockStore)
    (htime : m'.earliestKeyTime = m.earliestKeyTime) :
    Handles strict given called m m' where
  moves := hmoves
  connectedPeers := hpeers
  earliestKeyTime := htime
  store := by
    rw [hstore]
    exact .refl _

theorem Handles.reloaded
    (h : Handles strict given called m m₁)
    (hre : m₁.Reloaded m') :
    Handles strict given called m m' := by
  have hload : Handles strict [] [] m₁ m' := by
    refine .other ?_ ?_ hre.store hre.earliestKeyTime
    · rw [txLists, hre.publish, hre.relays]
      rfl
    · rw [hre.connections]
  have hall := h.trans hload
  rw [List.append_nil, List.append_nil] at hall
  exact hall

/-! ## The parts of the handlers -/

theorem addTxAux_moves
    {Live : BRPeer → Prop} {allTx : List BRTransaction}
    (fuel : ℕ) (l : PublishLists) (r : RelayLists) (tx : BRTransaction) (callback : Option ℕ)
    (hlisted : strict → callback = none ∨ fuel ≠ 0 ∧ tx.isUnconfirmed = true ∧
      ∀ e ∈ l.publishedTx, e.tx.txHash ≠ tx.txHash) :
    Moves Live strict ⟨l, r⟩ callback.toList []
      ⟨PublishLists.addTxAux allTx fuel l tx callback, r⟩ := by
  induction fuel generalizing l tx callback with
  | zero =>
      refine .single (.lose callback ?_)
      intro hs
      exact (hlisted hs).resolve_right (fun h => h.1 rfl)
  | succ fuel ih =>
      rw [PublishLists.addTxAux]
      split
      · rename_i hunconfirmed
        split
        · rename_i hany
          refine .single (.lose callback ?_)
          intro hs
          refine (hlisted hs).resolve_right ?_
          rintro ⟨-, -, hnew⟩
          obtain ⟨e, he, heq⟩ := List.any_eq_true.mp hany
          exact hnew e he (of_decide_eq_true heq)
        · rename_i hany
          have hnew : ∀ e ∈ l.publishedTx, e.tx.txHash ≠ tx.txHash := by
            intro e he heq
            exact hany (List.any_eq_true.mpr ⟨e, he, by simpa using heq⟩)
          have hlist := Moves.single (@Move.list Live strict ⟨l, r⟩ tx callback hnew)
          refine hlist.foldl ?_ tx.inputs
          -- the inputs come without a callback
          intro l i
          split
          · exact .nil _
          · rename_i t _
            exact ih l t none (fun _ => Or.inl rfl)
      · rename_i hconfirmed
        refine .single (.lose callback ?_)
        intro hs
        exact (hlisted hs).resolve_right (fun h => hconfirmed h.2.1)

theorem addTxToPublishList_handles
    (hlisted : strict → callback = none ∨ tx.isUnconfirmed = true ∧
      ∀ e ∈ m.publishedTx, e.tx.txHash ≠ tx.txHash) :
    Handles strict callback.toList [] m (m.addTxToPublishList tx callback) := by
  refine .move ?_ rfl rfl rfl
  refine addTxAux_moves _ m.toPublishLists m.toRelayLists tx callback ?_
  intro hs
  rcases hlisted hs with hnone | hnew
  · exact Or.inl hnone
  · exact Or.inr ⟨by omega, hnew⟩

theorem answerPublished_handles
    (strict : Prop)
    (hpeer : peer ∈ m.connectedPeers) (txHash : UInt256) :
    Handles strict [] (m.callbackFor txHash).toList m (m.answerPublished peer txHash).1 := by
  rw [answerPublished]
  split
  · rename_i hnil
    rw [PublishLists.callbackFor, hnil]
    exact .refl _ _
  · refine .move ?_ rfl rfl rfl
    have hmoves := (Moves.single
      (@Move.answer (· ∈ m.connectedPeers) strict m.txLists txHash)).trans (.single (.relay txHash hpeer))
    rw [List.append_nil, List.append_nil] at hmoves
    exact hmoves

theorem register_handles
    (strict : Prop)
    {isWalletTx : Bool}
    (h : m.register env tx = .ok (m', es, isWalletTx)) :
    fired es = [] ∧ Handles strict [] [] m m' := by
  obtain ⟨⟨w, events, b⟩, -, hret⟩ := bind_eq_ok.mp h
  cases hret
  exact ⟨fired_wallet events, .other rfl rfl (.refl _) rfl⟩

theorem updateTx_handles
    (strict : Prop)
    {txHashes : List UInt256} {timestamp : UInt32}
    (h : m.updateTx env txHashes txUnconfirmed timestamp = .ok (m', es)) :
    fired es = [] ∧ Handles strict [] [] m m' := by
  obtain ⟨m₁, w, events, hm₁, -, -, rfl, rfl⟩ := updateTx_ok h
  rw [if_neg (by simp)] at hm₁
  subst hm₁
  exact ⟨fired_wallet events, .other rfl rfl (.refl _) rfl⟩

theorem stampVerified_handles
    (strict : Prop)
    {tx : Option BRTransaction} {relayCount : ℕ}
    (h : m.stampVerified env tx relayCount = .ok (m', es)) :
    fired es = [] ∧ Handles strict [] [] m m' := by
  cases tx with
  | none =>
      cases h
      exact ⟨rfl, .refl _ _⟩
  | some tx =>
      rw [stampVerified] at h
      split at h
      · exact updateTx_handles strict h
      · cases h
        exact ⟨rfl, .refl _ _⟩

theorem countRelay_handles
    (strict : Prop)
    (hpeer : peer ∈ m.connectedPeers) (txHash : UInt256) (relayCount : ℕ) :
    Handles strict [] [] m (m.countRelay peer txHash relayCount).1 := by
  rw [countRelay]
  split
  · exact .move (.single (.relay txHash hpeer)) rfl rfl rfl
  · exact .refl _ _

theorem rmRequest_handles
    (strict : Prop)
    (m : BRPeerManager) (peer : BRPeer) (txHash : UInt256) :
    Handles strict [] [] m (m.rmRequest peer txHash) :=
  .move (.single (.rmRequest peer txHash)) rfl rfl rfl

theorem checkFilter_handles
    (strict : Prop)
    (h : m.checkFilter env = .ok m') :
    Handles strict [] [] m m' := by
  rw [checkFilter] at h
  split at h
  · cases h
    exact .refl _ _
  · obtain ⟨⟨w, external⟩, -, h⟩ := bind_eq_ok.mp h
    obtain ⟨⟨w', internal⟩, -, hret⟩ := bind_eq_ok.mp h
    cases hret
    exact .other rfl rfl (.refl _) rfl

theorem trackWalletTx_handles
    (strict : Prop)
    {relayCount relayCount' : ℕ}
    (hpeer : peer ∈ m.connectedPeers)
    (h : m.trackWalletTx env peer tx relayCount = .ok (m', relayCount')) :
    Handles strict [] [] m m' := by
  obtain ⟨sends, -, h⟩ := bind_eq_ok.mp h
  obtain ⟨m₂, hfilter, hret⟩ := bind_eq_ok.mp h
  cases hret
  have hlist : Handles strict [] [] m (if sends then m.addTxToPublishList tx none else m) := by
    split
    · exact addTxToPublishList_handles (fun _ => Or.inl rfl)
    · exact .refl _ _
  have hpeer' : peer ∈ (if sends then m.addTxToPublishList tx none else m).connectedPeers := by
    rw [hlist.connectedPeers]
    exact hpeer
  exact ((hlist.trans (countRelay_handles strict hpeer' _ _)).trans (rmRequest_handles strict _ _ _)).trans
    (checkFilter_handles strict hfilter)

theorem relayRegistered_handles
    (strict : Prop)
    {tx : Option BRTransaction} {isWalletTx : Bool} {relayCount : ℕ}
    (hpeer : peer ∈ m.connectedPeers)
    (h : m.relayRegistered env peer tx isWalletTx relayCount = .ok (m', es)) :
    fired es = [] ∧ Handles strict [] [] m m' := by
  unfold relayRegistered at h
  split at h
  · obtain ⟨⟨m₁, count⟩, htrack, h⟩ := bind_eq_ok.mp h
    obtain ⟨hes, hstamp⟩ := stampVerified_handles strict h
    exact ⟨hes, (trackWalletTx_handles strict hpeer htrack).trans hstamp⟩
  · exact stampVerified_handles strict h

/-! ## The handlers -/

theorem relayedTx_handles
    (strict : Prop)
    (hpeer : peer ∈ m.connectedPeers)
    (h : m.relayedTx env peer tx = .ok (m', es)) :
    Handles strict [] (fired es) m m' := by
  have hanswer := answerPublished_handles strict hpeer tx.txHash
  rw [relayedTx] at h
  dsimp only at h
  split at h
  · obtain ⟨⟨m₁, es₁, isWalletTx⟩, hreg, h⟩ := bind_eq_ok.mp h
    obtain ⟨⟨m₂, es₂⟩, hrest, hret⟩ := bind_eq_ok.mp h
    cases hret
    obtain ⟨hes₁, hreg⟩ := register_handles strict hreg
    have hpeer₁ : peer ∈ m₁.connectedPeers := by
      rw [hreg.connectedPeers, hanswer.connectedPeers]
      exact hpeer
    obtain ⟨hes₂, hrest⟩ := relayRegistered_handles strict hpeer₁ hrest
    rw [fired_append, fired_append, hes₁, hes₂, fired_callbackEvents]
    simpa only [List.append_nil, List.nil_append] using hanswer.trans (hreg.trans hrest)
  · cases h
    rw [fired_callbackEvents]
    exact hanswer

theorem hasTx_handles
    (strict : Prop)
    (hpeer : peer ∈ m.connectedPeers)
    (h : m.hasTx env peer txHash = .ok (m', es)) :
    Handles strict [] (fired es) m m' := by
  have hanswer := answerPublished_handles strict hpeer txHash
  rw [hasTx] at h
  dsimp only at h
  split at h
  · cases h
    rw [fired_callbackEvents]
    exact hanswer
  · obtain ⟨⟨m₁, es₁, isWalletTx⟩, hreg, h⟩ := bind_eq_ok.mp h
    obtain ⟨⟨m₂, es₂⟩, hstamp, hret⟩ := bind_eq_ok.mp h
    cases hret
    obtain ⟨hes₁, hreg⟩ := register_handles strict hreg
    obtain ⟨hes₂, hstamp⟩ := stampVerified_handles strict hstamp
    have hpeer₁ : peer ∈ m₁.connectedPeers := by
      rw [hreg.connectedPeers, hanswer.connectedPeers]
      exact hpeer
    rw [fired_append, fired_append, hes₁, hes₂, fired_callbackEvents]
    have hall := hanswer.trans
      (((hreg.trans (countRelay_handles strict hpeer₁ txHash _)).trans hstamp).trans
        (rmRequest_handles strict _ peer txHash))
    simpa only [List.append_nil, List.nil_append] using hall

theorem rejectedTx_handles
    (strict : Prop)
    (h : m.rejectedTx env peer txHash = .ok (m', es)) :
    fired es = [] ∧ Handles strict [] [] m m' := by
  have hrm := rmRequest_handles strict m peer txHash
  rw [rejectedTx] at h
  dsimp only at h
  split at h
  · cases h
    exact ⟨rfl, hrm⟩
  · have hrelay : Handles strict [] [] (m.rmRequest peer txHash)
        { m.rmRequest peer txHash with
          txRelays := (BRTxPeerList.removePeer (m.rmRequest peer txHash).txRelays
            txHash peer).1 } :=
      .move (.single (.rmRelay peer txHash)) rfl rfl rfl
    split at h
    · obtain ⟨hes, hupdate⟩ := updateTx_handles strict h
      exact ⟨hes, (hrm.trans hrelay).trans hupdate⟩
    · cases h
      exact ⟨rfl, hrm.trans hrelay⟩

theorem dataNotfound_handles
    (strict : Prop)
    (m : BRPeerManager) (peer : BRPeer) (txHashes : List UInt256) :
    Handles strict [] [] m (m.dataNotfound peer txHashes) := by
  induction txHashes generalizing m with
  | nil =>
      exact .refl _ _
  | cons h txHashes ih =>
      have hrelay : Handles strict [] [] m
          { m with txRelays := (BRTxPeerList.removePeer m.txRelays h peer).1 } :=
        .move (.single (.rmRelay peer h)) rfl rfl rfl
      exact (hrelay.trans (rmRequest_handles strict _ peer h)).trans (ih _)

theorem requestUnrelayedTx_handles
    (strict : Prop)
    (hpeer : peer ∈ m.connectedPeers) :
    Handles strict [] [] m (m.requestUnrelayedTx peer) := by
  have hloop : ∀ (hashes : List UInt256) (r : List BRTxPeerList × ℕ),
      Moves (· ∈ m.connectedPeers) strict
        ⟨m.toPublishLists, { txRelays := m.txRelays, txRequests := r.1 }⟩ [] []
        ⟨m.toPublishLists,
          { txRelays := m.txRelays, txRequests := (hashes.foldl (m.requestTx peer) r).1 }⟩ := by
    intro hashes
    induction hashes with
    | nil =>
        intro r
        exact .nil _
    | cons h hashes ih =>
        intro r
        have hone : Moves (· ∈ m.connectedPeers) strict
            ⟨m.toPublishLists, { txRelays := m.txRelays, txRequests := r.1 }⟩ [] []
            ⟨m.toPublishLists,
              { txRelays := m.txRelays, txRequests := (m.requestTx peer r h).1 }⟩ := by
          rw [requestTx]
          split
          · exact .nil _
          · exact .single (.request h hpeer)
        exact hone.trans (ih _)
  rw [requestUnrelayedTx]
  split <;> exact .move (hloop _ (m.txRequests, 0)) rfl rfl rfl

theorem syncStopped_handles
    (strict : Prop) (m : BRPeerManager) :
    Handles strict [] [] m m.syncStopped :=
  .other rfl rfl (.refl _) rfl

theorem mempoolDone_handles
    (strict : Prop)
    (hpeer : peer ∈ m.connectedPeers) (success : Bool) :
    Handles strict [] [] m (m.mempoolDone peer success) := by
  rw [mempoolDone]
  split
  · split
    · exact (syncStopped_handles strict m).trans (requestUnrelayedTx_handles strict hpeer)
    · exact requestUnrelayedTx_handles strict hpeer
  · exact .refl _ _

theorem loadBloomFilterDone_handles
    (strict : Prop) (m : BRPeerManager) (peer : BRPeer) (success : Bool) :
    Handles strict [] [] m (m.loadBloomFilterDone peer success) := by
  rw [loadBloomFilterDone]
  split
  · exact syncStopped_handles strict m
  · exact .refl _ _

theorem dropUnrelayed_handles
    (strict : Prop)
    (h : m.dropUnrelayed env tx = .ok (m', es)) :
    fired es = [] ∧ Handles strict [] [] m m' := by
  rw [dropUnrelayed] at h
  split at h
  · cases h
    exact ⟨rfl, .refl _ _⟩
  · split at h
    · obtain ⟨⟨w, events⟩, -, hret⟩ := bind_eq_ok.mp h
      cases hret
      exact ⟨fired_wallet events, .other rfl rfl (.refl _) rfl⟩
    · split at h
      · exact updateTx_handles strict h
      · cases h
        exact ⟨rfl, .refl _ _⟩

theorem requestUnrelayedTxGetdataDone_handles
    (strict : Prop)
    (h : m.requestUnrelayedTxGetdataDone env peer success = .ok (m', es)) :
    fired es = [] ∧ Handles strict [] [] m m' := by
  have hsync : Handles strict [] [] m (if success then m.setSynced peer else m) := by
    split
    · exact .other rfl rfl (.refl _) rfl
    · exact .refl _ _
  rw [requestUnrelayedTxGetdataDone] at h
  generalize hm₁ : (if success then m.setSynced peer else m) = m₁ at h hsync
  split at h
  · refine run_invariant
      (I := fun m₂ es => fired es = [] ∧ Handles strict [] [] m m₂)
      ?_ ⟨fired_nil, hsync⟩ (guarded_of_forall (fun _ _ => trivial) _ _) h
    rintro m₂ log tx m₃ es₃ ⟨hlog, h₂⟩ - hstep
    obtain ⟨hes, h₃⟩ := dropUnrelayed_handles strict hstep
    exact ⟨by rw [fired_append, hlog, hes]; rfl, h₂.trans h₃⟩
  · cases h
    exact ⟨rfl, hsync⟩

theorem updateFilterPingDone_handles
    (strict : Prop)
    (h : m.updateFilterPingDone env success = .ok m') :
    Handles strict [] [] m m' := by
  rw [updateFilterPingDone] at h
  split at h
  · have hnone : Handles strict [] [] m { m with bloomFilter := none } :=
      .other rfl rfl (.refl _) rfl
    obtain ⟨b, -, h⟩ := bind_eq_ok.mp h
    split at h
    · split at h
      · exact hnone.reloaded (loadBloomFilter_ok h).1
      · cases h
        exact hnone
    · refine foldlM_invariant (I := fun m' => Handles strict [] [] m m') ?_ hnone h
      intro m₁ p _ m₂ hm₁ hstep
      exact hm₁.reloaded (loadBloomFilter_ok hstep).1
  · cases h
    exact .refl _ _

theorem peerConnected_handles
    (strict : Prop)
    {hs : Handshake}
    (h : m.peerConnected env peer hs = .ok m') :
    Handles strict [] [] m m' := by
  rw [peerConnected] at h
  split at h
  · cases h
    exact .refl _ _
  · obtain ⟨b, -, h⟩ := bind_eq_ok.mp h
    split at h
    · split at h
      · split at h
        · refine .reloaded ?_ (loadBloomFilter_ok h).1
          exact .other rfl rfl (.refl _) rfl
        · cases h
          exact .refl _ _
      · obtain ⟨m₁, hload, h⟩ := bind_eq_ok.mp h
        have hchosen : Handles strict [] [] m m₁ := by
          refine .reloaded ?_ (loadBloomFilter_ok hload).1
          exact .other rfl rfl (.refl _) rfl
        split at h
        · cases h
          exact hchosen
        · have hreset : Handles strict [] [] m₁ { m₁ with connectFailureCount := 0 } :=
            .other rfl rfl (.refl _) rfl
          exact (hchosen.trans hreset).reloaded (loadMempools_ok h)
    · cases h
      exact .refl _ _

theorem beginConnect_handles
    (strict : Prop)
    (h : m.beginConnect = .ok m') :
    Handles strict [] [] m m' := by
  rw [beginConnect] at h
  have hreset : Handles strict [] [] m
      (if maxConnectFailures ≤ m.connectFailureCount then { m with connectFailureCount := 0 }
        else m) := by
    split
    · exact .other rfl rfl (.refl _) rfl
    · exact .refl _ _
  obtain ⟨height, rfl⟩ := startSync_ok h
  exact hreset.trans (.other rfl rfl (.refl _) rfl)

theorem publishTx_handles
    (hlisted : strict → callback = none ∨ (! tx.isSigned) = true ∨ m.isUnreachable env = true ∨
      tx.isUnconfirmed = true ∧ ∀ e ∈ m.publishedTx, e.tx.txHash ≠ tx.txHash) :
    Handles strict callback.toList (fired (m.publishTx env tx callback).2) m
      (m.publishTx env tx callback).1 := by
  have hrefuse : Handles strict callback.toList callback.toList m m :=
    .move (.single (.refuse callback)) rfl rfl rfl
  rw [publishTx]
  split
  · rw [fired_callbackEvents]
    exact hrefuse
  · rename_i hsigned
    split
    · rw [fired_callbackEvents]
      exact hrefuse
    · rename_i hreach
      refine addTxToPublishList_handles ?_
      intro hs
      rcases hlisted hs with hnone | h | h | h
      · exact Or.inl hnone
      · exact absurd h hsigned
      · exact absurd h hreach
      · exact Or.inr h

end BRPeerManager

/-! ## Requested transactions -/

namespace PublishLists

/-- The two arrays run in parallel, and no transaction is listed twice. -/
structure Parallel (l : PublishLists) : Prop where
  hashes : l.publishedTxHashes = l.publishedTx.map (fun e => e.tx.txHash)
  nodup : l.publishedTxHashes.Nodup

variable {env : Env} {w : BRWallet} {txHash : UInt256} {l : PublishLists} {r : Request}

theorem callbackFor_cons
    (e : BRPublishedTx) (publishedTx : List BRPublishedTx) (h : UInt256)
    (publishedTxHashes : List UInt256) (txHash : UInt256) :
    callbackFor ⟨e :: publishedTx, h :: publishedTxHashes⟩ txHash =
      if h = txHash then e.callback
      else callbackFor ⟨publishedTx, publishedTxHashes⟩ txHash := by
  by_cases heq : h = txHash <;> simp [callbackFor, named, heq]

theorem silence_of_notMem
    {publishedTx : List BRPublishedTx} {publishedTxHashes : List UInt256}
    (hnot : txHash ∉ publishedTxHashes) :
    silence txHash publishedTx publishedTxHashes = publishedTx := by
  induction publishedTx generalizing publishedTxHashes with
  | nil =>
      cases publishedTxHashes <;> rfl
  | cons e publishedTx ih =>
      cases publishedTxHashes with
      | nil =>
          rfl
      | cons h publishedTxHashes =>
          rw [List.mem_cons, not_or] at hnot
          rw [silence, if_neg (Ne.symm hnot.1), ih hnot.2]

theorem rm_of_forall
    {p : BRPublishedTx → Bool} {publishedTx : List BRPublishedTx}
    (hp : ∀ e ∈ publishedTx, p e = false) (publishedTxHashes : List UInt256) :
    rm p publishedTx publishedTxHashes = ⟨publishedTx, publishedTxHashes⟩ := by
  induction publishedTx generalizing publishedTxHashes with
  | nil =>
      cases publishedTxHashes <;> rfl
  | cons e publishedTx ih =>
      cases publishedTxHashes with
      | nil =>
          rfl
      | cons h publishedTxHashes =>
          rw [rm, hp e (by simp), ih (fun e he => hp e (by simp [he]))]
          rfl

theorem requestLoop_of_notMem
    {publishedTx : List BRPublishedTx} {publishedTxHashes : List UInt256}
    (hnot : txHash ∉ publishedTxHashes)
    (h : requestLoop env w txHash publishedTx publishedTxHashes = .ok (l, r)) :
    l = ⟨publishedTx, publishedTxHashes⟩ ∧ r.callback = none := by
  induction publishedTx generalizing publishedTxHashes l r with
  | nil =>
      cases publishedTxHashes <;> cases h <;> exact ⟨rfl, rfl⟩
  | cons e publishedTx ih =>
      cases publishedTxHashes with
      | nil =>
          cases h
          exact ⟨rfl, rfl⟩
      | cons h' publishedTxHashes =>
          rw [List.mem_cons, not_or] at hnot
          obtain ⟨⟨l₁, r₁⟩, hrest, h⟩ := bind_eq_ok.mp h
          obtain ⟨rfl, hcallback⟩ := ih hnot.2 hrest
          dsimp only at h
          rw [if_neg (Ne.symm hnot.1)] at h
          cases h
          exact ⟨rfl, hcallback⟩

/-- The entry gives up its callback or is removed. -/
theorem requestLoop_ok
    {publishedTx : List BRPublishedTx} {publishedTxHashes : List UInt256}
    (hl : Parallel ⟨publishedTx, publishedTxHashes⟩)
    (h : requestLoop env w txHash publishedTx publishedTxHashes = .ok (l, r)) :
    r.callback = callbackFor ⟨publishedTx, publishedTxHashes⟩ txHash ∧
      (l = ⟨silence txHash publishedTx publishedTxHashes, publishedTxHashes⟩ ∨
        l = rm (fun e => txHash = e.tx.txHash) publishedTx publishedTxHashes) := by
  obtain ⟨hhashes, hnodup⟩ := hl
  dsimp only at hhashes hnodup
  subst hhashes
  induction publishedTx generalizing l r with
  | nil =>
      cases h
      exact ⟨rfl, Or.inl rfl⟩
  | cons e publishedTx ih =>
      rw [List.map_cons] at h hnodup ⊢
      rw [List.nodup_cons] at hnodup
      obtain ⟨⟨l₁, r₁⟩, hrest, h⟩ := bind_eq_ok.mp h
      rw [callbackFor_cons]
      dsimp only at h
      by_cases heq : e.tx.txHash = txHash
      · -- the only entry for this hash
        have hnot : txHash ∉ publishedTx.map (fun e => e.tx.txHash) := heq ▸ hnodup.1
        obtain ⟨rfl, -⟩ := requestLoop_of_notMem hnot hrest
        rw [if_pos heq] at h ⊢
        obtain ⟨valid, -, h⟩ := bind_eq_ok.mp h
        rw [silence, if_pos heq, silence_of_notMem hnot, rm]
        split at h
        · cases h
          exact ⟨rfl, Or.inl rfl⟩
        · cases h
          refine ⟨rfl, Or.inr ?_⟩
          rw [rm_of_forall]
          · simp [heq]
          · intro x hx
            have hne : txHash ≠ x.tx.txHash := by
              rintro rfl
              exact hnot (List.mem_map_of_mem hx)
            simpa using hne
      · obtain ⟨hcallback, hcase⟩ := ih hrest hnodup.2
        rw [if_neg heq] at h ⊢
        cases h
        refine ⟨hcallback, ?_⟩
        rcases hcase with rfl | rfl
        · left
          rw [silence, if_neg heq]
        · right
          rw [rm]
          simp [Ne.symm heq]

end PublishLists

namespace BRPeerManager

variable {strict : Prop} {env : Env} {m m' : BRPeerManager} {peer : BRPeer}
variable {txHash : UInt256} {es : List ManagerEvent} {block prev : ChainBlock}

theorem requestedTx_handles
    (strict : Prop)
    (hpeer : peer ∈ m.connectedPeers)
    (hl : m.toPublishLists.Parallel)
    (h : m.requestedTx env peer txHash = .ok (m', es)) :
    Handles strict [] (fired es) m m' := by
  obtain ⟨⟨l, r⟩, hloop, h⟩ := bind_eq_ok.mp h
  obtain ⟨hcallback, hcase⟩ := PublishLists.requestLoop_ok hl hloop
  have hanswer : Handles strict [] r.callback.toList m { m with toPublishLists := l } := by
    rw [hcallback]
    rcases hcase with rfl | rfl
    · exact .move (.single (.answer txHash)) rfl rfl rfl
    · exact .move (.single (.reject txHash)) rfl rfl rfl
  dsimp only at h
  split at h
  · split at h
    · obtain ⟨⟨m₁, es₁, b⟩, hreg, hret⟩ := bind_eq_ok.mp h
      cases hret
      obtain ⟨hes, hreg⟩ := register_handles strict hreg
      have hrelay : Handles strict [] [] { m with toPublishLists := l }
          { m with
            toPublishLists := l
            txRelays := (BRTxPeerList.addPeer m.txRelays txHash peer).1 } :=
        .move (.single (.relay txHash hpeer)) rfl rfl rfl
      rw [fired_append, hes, fired_callbackEvents]
      simpa only [List.append_nil, List.nil_append] using hanswer.trans (hrelay.trans hreg)
    · cases h
      rw [fired_callbackEvents]
      exact hanswer
  · cases h
    rw [fired_callbackEvents]
    exact hanswer

/-! ## Relayed blocks -/

/-- The block is on the main chain, so the transactions it matches are
confirmed. -/
def Confirms (m : BRPeerManager) (block : ChainBlock) : Prop :=
  ∃ prev s last, m.blocks.get block.prevBlock = some prev ∧
    m.toBlockStore.verifyBlock block prev = .ok (s, true) ∧ m.lastBlock = some last ∧
    (block.prevBlock = last.blockHash ∨
      (s.blocks.get block.blockHash).isSome ∧
        ∃ b, s.blocks.walkDown block.height (s.blocks.length + 2) (some last) = .ok (some b) ∧
          b.blockHash = block.blockHash)

/-- No callback waits for a transaction that the block confirms. -/
def ConfirmsQuietly (m : BRPeerManager) (block : ChainBlock) : Prop :=
  block.isRecentHeader m.earliestKeyTime = false → m.bloomFilter ≠ none →
    m.Confirms block → ∀ h ∈ block.txHashes, m.toPublishLists.Quiet h

theorem rm_sublist
    (p : BRPublishedTx → Bool) (publishedTx : List BRPublishedTx)
    (publishedTxHashes : List UInt256) :
    List.Sublist (PublishLists.rm p publishedTx publishedTxHashes).publishedTx publishedTx := by
  induction publishedTx generalizing publishedTxHashes with
  | nil =>
      cases publishedTxHashes <;> exact List.Sublist.refl _
  | cons e publishedTx ih =>
      cases publishedTxHashes with
      | nil =>
          exact List.Sublist.refl _
      | cons h publishedTxHashes =>
          rw [PublishLists.rm]
          split
          · exact (ih _).trans (List.sublist_cons_self _ _)
          · exact (ih _).cons_cons e

theorem rmConfirmed_moves
    (Live : BRPeer → Prop) (txHashes : List UInt256) (m : BRPeerManager) :
    Moves Live (∀ h ∈ txHashes, m.toPublishLists.Quiet h) m.txLists [] []
      (txHashes.foldl rmConfirmed m).txLists := by
  induction txHashes generalizing m with
  | nil =>
      exact .nil _
  | cons h txHashes ih =>
      have hone : Moves Live (∀ h' ∈ h :: txHashes, m.toPublishLists.Quiet h') m.txLists [] []
          (m.rmConfirmed h).txLists :=
        .single (.confirm h (fun hall => hall h (by simp)))
      refine hone.trans ((ih (m.rmConfirmed h)).weaken ?_)
      intro hall h' hh' e he
      exact hall h' (by simp [hh']) e ((rm_sublist _ _ _).subset he)

theorem Tracks.refl
    (strict : Prop) (m : BRPeerManager) :
    Tracks strict [] [] m m :=
  (Handles.refl strict m).toTracks

/-- A change of the other fields. -/
theorem Tracks.other
    (hlists : m'.txLists = m.txLists)
    (hpeers : m'.connectedPeers = m.connectedPeers)
    (htime : m'.earliestKeyTime = m.earliestKeyTime) :
    Tracks strict [] [] m m' where
  moves := by
    rw [hlists]
    exact .nil _
  connectedPeers := hpeers
  earliestKeyTime := htime

theorem Tracks.weaken
    {strict' : Prop} {given called : List ℕ}
    (himp : strict' → strict)
    (h : Tracks strict given called m m') :
    Tracks strict' given called m m' :=
  ⟨h.moves.weaken himp, h.connectedPeers, h.earliestKeyTime⟩

/-- The same moves from a state that only differs in other fields. -/
theorem Tracks.start
    {given called : List ℕ} {m₁ : BRPeerManager}
    (h : Tracks strict given called m₁ m')
    (hlists : m₁.txLists = m.txLists)
    (hpeers : m₁.connectedPeers = m.connectedPeers)
    (htime : m₁.earliestKeyTime = m.earliestKeyTime) :
    Tracks strict given called m m' where
  moves := by
    rw [← hlists, ← hpeers]
    exact h.moves
  connectedPeers := h.connectedPeers.trans hpeers
  earliestKeyTime := h.earliestKeyTime.trans htime

theorem Reloaded.tracks
    (strict : Prop)
    (h : m.Reloaded m') :
    Tracks strict [] [] m m' :=
  ((Handles.refl strict m).reloaded h).toTracks

theorem replaceBlock_txLists
    (m : BRPeerManager) (block : ChainBlock) :
    (m.replaceBlock block).txLists = m.txLists := by
  rw [replaceBlock]
  dsimp only
  split
  · rfl
  · split <;> rfl

theorem replaceBlock_connectedPeers
    (m : BRPeerManager) (block : ChainBlock) :
    (m.replaceBlock block).connectedPeers = m.connectedPeers := by
  rw [replaceBlock]
  dsimp only
  split
  · rfl
  · split <;> rfl

theorem replaceBlock_earliestKeyTime
    (m : BRPeerManager) (block : ChainBlock) :
    (m.replaceBlock block).earliestKeyTime = m.earliestKeyTime := by
  rw [replaceBlock]
  dsimp only
  split
  · rfl
  · split <;> rfl

theorem confirmTxs_tracks
    (h : m.confirmTxs env block prev = .ok (m', es)) :
    fired es = [] ∧
      Tracks (∀ h ∈ block.txHashes, m.toPublishLists.Quiet h) [] [] m m' := by
  rcases (confirmTxs_ok h).2 with ⟨-, rfl, rfl, -⟩ | hupdate
  · exact ⟨rfl, .refl _ _⟩
  · obtain ⟨m₁, w, events, hm₁, hde, -, rfl, rfl⟩ := updateTx_ok hupdate
    refine ⟨fired_wallet events, ?_, by rw [← hde.connections], hde.earliestKeyTime⟩
    change Moves _ _ _ _ _ m₁.txLists
    rw [hm₁]
    split
    · exact rmConfirmed_moves _ _ _
    · exact .nil _

variable {r : Handled} {s : BlockStore}

theorem valid_tracks
    (hprev : m.blocks.get block.prevBlock = some prev)
    (hverify : m.toBlockStore.verifyBlock block prev = .ok (s, true))
    (h : Valid env { m with toBlockStore := s } peer block prev r) :
    fired r.events = [] ∧
      Tracks (m.Confirms block → ∀ h ∈ block.txHashes, m.toPublishLists.Quiet h) [] []
        m r.manager := by
  have hslast : s.lastBlock = m.lastBlock := (BlockStore.verifyBlock_ok hverify).1.lastBlock
  cases h with
  | @extended last r hlast hlink hext =>
      obtain ⟨m₁, m₂, c, hconf, rfl, hre, -, -⟩ := extendChain_ok hext
      obtain ⟨hes, hconf⟩ := confirmTxs_tracks hconf
      have hlast' : m.lastBlock = some last := hslast.symm.trans hlast
      have hconfirms : m.Confirms block :=
        ⟨prev, s, last, hprev, hverify, hlast', Or.inl hlink⟩
      refine ⟨hes, ?_⟩
      have hstart : Tracks (m.Confirms block → ∀ h ∈ block.txHashes,
          m.toPublishLists.Quiet h) [] [] m m₁ :=
        (hconf.weaken (fun h => h hconfirms)).start rfl rfl rfl
      have hend : Tracks (m.Confirms block → ∀ h ∈ block.txHashes,
          m.toPublishLists.Quiet h) [] [] m₁ r.manager :=
        (hre.tracks _).start rfl rfl rfl
      exact hstart.trans hend
  | @existing last b r hlast hne hstored hex =>
      obtain ⟨x, m₁, hwalk, hman, -, -, hcase⟩ := relayExisting_ok hex
      have hreplace : ∀ strict, Tracks strict [] [] m₁ r.manager := by
        intro strict
        rw [hman]
        exact .other (replaceBlock_txLists _ _) (replaceBlock_connectedPeers _ _)
          (replaceBlock_earliestKeyTime _ _)
      rcases hcase with ⟨-, rfl, hes⟩ | ⟨heq, m₂, hconf, rfl⟩
      · rw [hes]
        exact ⟨rfl, (hreplace _).start rfl rfl rfl⟩
      · obtain ⟨hes, hconf⟩ := confirmTxs_tracks hconf
        have hlast' : m.lastBlock = some last := hslast.symm.trans hlast
        have hsome : (s.blocks.get block.blockHash).isSome := by
          rw [hstored]
          rfl
        have hconfirms : m.Confirms block :=
          ⟨prev, s, last, hprev, hverify, hlast', Or.inr ⟨hsome, x, hwalk, heq⟩⟩
        have hstart : Tracks (m.Confirms block → ∀ h ∈ block.txHashes,
            m.toPublishLists.Quiet h) [] [] m m₂ :=
          (hconf.weaken (fun h => h hconfirms)).start rfl rfl rfl
        have hlater : ∀ strict, Tracks strict [] [] m₂
            (if block.height = last.height then { m₂ with lastBlock := some block } else m₂) := by
          intro strict
          split
          · exact .other rfl rfl rfl
          · exact .refl _ _
        exact ⟨hes, (hstart.trans (hlater _)).trans (hreplace _)⟩
  | postponed _ _ _ _ _ =>
      exact ⟨rfl, .other rfl rfl rfl⟩
  | oldFork _ _ _ _ =>
      exact ⟨rfl, .other rfl rfl rfl⟩
  | lowFork _ _ _ _ _ =>
      exact ⟨rfl, .other rfl rfl rfl⟩
  | highFork _ _ _ _ _ hre =>
      obtain ⟨_, _, _, _, _, _, _, _, _, hre, hes, -⟩ := reorganize_ok hre
      refine ⟨?_, ?_⟩
      · rw [hes]
        exact fired_wallet _
      · exact (hre.tracks _).start rfl rfl rfl

theorem branch_tracks
    (h : Branch env m peer block r) :
    fired r.events = [] ∧ Tracks (m.ConfirmsQuietly block) [] [] m r.manager := by
  cases h with
  | header _ =>
      exact ⟨rfl, .other rfl rfl rfl⟩
  | waiting _ _ =>
      exact ⟨rfl, .other rfl rfl rfl⟩
  | oldOrphan _ _ _ _ =>
      exact ⟨rfl, .other rfl rfl rfl⟩
  | orphan _ _ _ _ =>
      exact ⟨rfl, .other rfl rfl rfl⟩
  | invalid _ _ _ _ =>
      exact ⟨rfl, .other rfl rfl rfl⟩
  | valid hheader hfilter hprev hverify hvalid =>
      obtain ⟨hes, htracks⟩ := valid_tracks hprev hverify hvalid
      exact ⟨hes, htracks.weaken (fun hquiet => hquiet hheader hfilter)⟩

theorem fired_saveEvents
    (saved : List ChainBlock) :
    fired (saveEvents saved) = [] := by
  rw [saveEvents]
  split <;> rfl

theorem relayStep_tracks
    {next : Option ChainBlock}
    (h : m.relayStep env peer block = .ok (m', es, next)) :
    fired es = [] ∧ Tracks (m.ConfirmsQuietly (m.placeBlock block)) [] [] m m' := by
  obtain ⟨r, hr, hfin⟩ := relayStep_ok h
  obtain ⟨hes, htracks⟩ := branch_tracks hr
  rcases finish_ok hfin with ⟨-, rfl, rfl, -⟩ | ⟨b, saved, -, hrel, -, rfl⟩
  · exact ⟨hes, htracks⟩
  · rw [fired_append, hes, fired_saveEvents]
    refine ⟨rfl, ?_⟩
    rcases releaseNext_ok hrel with ⟨-, rfl, -⟩ | ⟨-, rfl, -⟩
    · exact htracks
    · exact htracks.trans (.other rfl rfl rfl)

/-- No callback waits for a transaction that a relayed block, or an orphan that
follows it, confirms. -/
def RelaysQuietly (env : Env) (m : BRPeerManager) (peer : BRPeer) (block : ChainBlock) : Prop :=
  RelayGuard env peer (fun m b => m.ConfirmsQuietly (m.placeBlock b)) (m.orphans.length + 2) m
    block

theorem relayLoop_tracks
    {n : ℕ}
    (h : relayLoop env peer n m block = .ok (m', es)) :
    fired es = [] ∧
      Tracks (RelayGuard env peer (fun m b => m.ConfirmsQuietly (m.placeBlock b)) n m block) [] []
        m m' := by
  induction n generalizing m block es with
  | zero =>
      cases h
  | succ n ih =>
      obtain ⟨⟨m₁, es₁, next⟩, hs, h⟩ := bind_eq_ok.mp h
      obtain ⟨hes₁, htracks⟩ := relayStep_tracks hs
      have hstep : Tracks (RelayGuard env peer
          (fun m b => m.ConfirmsQuietly (m.placeBlock b)) (n + 1) m block) [] [] m m₁ :=
        htracks.weaken (fun hg => hg.1)
      cases next with
      | none =>
          cases h
          exact ⟨hes₁, hstep⟩
      | some x =>
          obtain ⟨⟨m₂, es₂⟩, hloop, hret⟩ := bind_eq_ok.mp h
          cases hret
          obtain ⟨hes₂, hrest⟩ := ih hloop
          rw [fired_append, hes₁, hes₂]
          exact ⟨rfl, hstep.trans (hrest.weaken (fun hg => hg.2 m₁ es₁ x hs))⟩

theorem relayedBlock_tracks
    (h : m.relayedBlock env peer block = .ok (m', es)) :
    fired es = [] ∧ Tracks (m.RelaysQuietly env peer block) [] [] m m' :=
  relayLoop_tracks h

/-! ## Peers that come and go -/

theorem dial_connectedPeers
    (m : BRPeerManager) (peers : List BRPeer) :
    (m.dial peers).connectedPeers =
      peers.foldl (pickPeer m.maxConnectCount) m.connectedPeers := by
  rw [dial]
  dsimp only
  split <;> rfl

theorem dial_frame
    (m : BRPeerManager) (peers : List BRPeer) :
    (m.dial peers).txLists = m.txLists ∧ (m.dial peers).toBlockStore = m.toBlockStore ∧
      (m.dial peers).earliestKeyTime = m.earliestKeyTime := by
  rw [dial]
  dsimp only
  split <;> exact ⟨rfl, rfl, rfl⟩

theorem leaveDownload_frame
    (m : BRPeerManager) (peer : BRPeer) (error : ℕ) :
    ((m.countFailure error).leaveDownload peer).txLists = m.txLists ∧
      ((m.countFailure error).leaveDownload peer).connectedPeers = m.connectedPeers ∧
      ((m.countFailure error).leaveDownload peer).toBlockStore = m.toBlockStore ∧
      ((m.countFailure error).leaveDownload peer).earliestKeyTime = m.earliestKeyTime := by
  rw [leaveDownload, countFailure]
  split <;> split <;> exact ⟨rfl, rfl, rfl, rfl⟩

theorem cancelPublished_moves
    (Live : BRPeer → Prop) (strict : Prop) (m : BRPeerManager) (error : ℕ) :
    Moves Live strict m.txLists [] (fired (m.cancelPublished error).2)
      (m.cancelPublished error).1.txLists := by
  rw [cancelPublished]
  split
  · exact .nil _
  · have hfired : ∀ callbacks : List ℕ,
        fired (callbacks.map (ManagerEvent.published · error)) = callbacks := by
      intro callbacks
      induction callbacks with
      | nil =>
          rfl
      | cons c callbacks ih =>
          exact congrArg (c :: ·) ih
    rw [hfired, List.filterMap_reverse]
    exact .single .cancel

theorem cancelPublished_frame
    (m : BRPeerManager) (error : ℕ) :
    (m.cancelPublished error).1.toRelayLists = m.toRelayLists ∧
      (m.cancelPublished error).1.toBlockStore = m.toBlockStore ∧
      (m.cancelPublished error).1.earliestKeyTime = m.earliestKeyTime := by
  rw [cancelPublished]
  split <;> exact ⟨rfl, rfl, rfl⟩

/-- A peer that leaves is taken off the relayed transactions, but not off the
requested ones. -/
theorem peerDisconnected_ok
    (Live : BRPeer → Prop) (strict : Prop) (m : BRPeerManager) (peer : BRPeer) (error : ℕ)
    {m' : BRPeerManager} {es : List ManagerEvent}
    (h : m.peerDisconnected peer error = (m', es)) :
    Moves Live strict m.txLists [] (fired es) m'.txLists ∧
      m'.connectedPeers = KeyedList.eraseLast id m.connectedPeers peer ∧
      m'.toRelayLists = { m.toRelayLists with txRelays := rmPeer peer m.txRelays } ∧
      m'.toBlockStore = m.toBlockStore ∧ m'.earliestKeyTime = m.earliestKeyTime := by
  rw [peerDisconnected] at h
  obtain ⟨hlists, hpeers, hstore, htime⟩ := leaveDownload_frame m peer error
  generalize (m.countFailure error).leaveDownload peer = m₁ at h hlists hpeers hstore htime
  have hsame : (if m₁.hasFailed then m₁.syncStopped else m₁).txLists = m₁.txLists ∧
      (if m₁.hasFailed then m₁.syncStopped else m₁).toBlockStore = m₁.toBlockStore ∧
      (if m₁.hasFailed then m₁.syncStopped else m₁).earliestKeyTime = m₁.earliestKeyTime := by
    split <;> exact ⟨rfl, rfl, rfl⟩
  obtain ⟨hlists₂, hstore₂, htime₂⟩ := hsame
  dsimp only at h
  generalize (if m₁.hasFailed then m₁.syncStopped else m₁) = m₂ at h hlists₂ hstore₂ htime₂
  generalize (if m₁.hasFailed then enotconn else m.timeoutError peer error) = txError at h
  have hmoves := cancelPublished_moves Live strict m₂ txError
  obtain ⟨hrelays, hstore₃, htime₃⟩ := cancelPublished_frame m₂ txError
  generalize m₂.cancelPublished txError = cancelled at h hmoves hrelays hstore₃ htime₃
  cases h
  have hlists' : m₂.txLists = m.txLists := hlists₂.trans hlists
  have hrelays₁ : m₁.toRelayLists = m.toRelayLists := congrArg TxLists.toRelayLists hlists
  have hrelays₂ : cancelled.1.toRelayLists = m.toRelayLists :=
    hrelays.trans (congrArg TxLists.toRelayLists hlists')
  have hsame : m₁.txRelays = cancelled.1.txRelays :=
    congrArg RelayLists.txRelays (hrelays₁.trans hrelays₂.symm)
  refine ⟨?_, by rw [hpeers], ?_, (hstore₃.trans hstore₂).trans hstore,
    (htime₃.trans htime₂).trans htime⟩
  · rw [hlists'] at hmoves
    have hleave := hmoves.trans (.single (.leave peer))
    rw [List.append_nil, List.append_nil] at hleave
    change Moves Live strict m.txLists [] (fired cancelled.2)
      ⟨cancelled.1.toPublishLists,
        { txRelays := rmPeer peer m₁.txRelays, txRequests := cancelled.1.txRequests }⟩
    rw [hsame]
    exact hleave
  · rw [hsame, ← hrelays₂]

theorem beginRescan_frame
    (env : Env) (m : BRPeerManager) :
    (m.beginRescan env).txLists = m.txLists ∧
      (m.beginRescan env).connectedPeers = m.connectedPeers ∧
      (m.beginRescan env).earliestKeyTime = m.earliestKeyTime := by
  rw [beginRescan]
  split
  · split <;> exact ⟨rfl, rfl, rfl⟩
  · exact ⟨rfl, rfl, rfl⟩

theorem disconnect_handles
    (strict : Prop) (m : BRPeerManager) :
    Handles strict [] [] m m.disconnect := by
  rw [disconnect]
  split
  · exact .refl _ _
  · exact .other rfl rfl (.refl _) rfl

/-! ## All events -/

/-- The event loses no callback: a transaction that is published is not
confirmed or listed already, and no callback waits for one that a relayed block
confirms. -/
def KeepsCallbacks (m : BRPeerManager) (i : ManagerInput) : Prop :=
  match i.call with
  | .publishTx tx callback =>
      callback = none ∨ (! tx.isSigned) = true ∨ m.isUnreachable i.env = true ∨
        tx.isUnconfirmed = true ∧ ∀ e ∈ m.publishedTx, e.tx.txHash ≠ tx.txHash
  | .publishListed tx callback =>
      callback = none ∨
        tx.isUnconfirmed = true ∧ ∀ e ∈ m.publishedTx, e.tx.txHash ≠ tx.txHash
  | .relayedBlock peer block => m.RelaysQuietly i.env peer block
  | _ => True

/-- Events that are neither of the application's nor of the chain's, or that
leave the peers and the blocks alone. -/
inductive Effect (m : BRPeerManager) (i : ManagerInput) (called : List ℕ) (m' : BRPeerManager) :
    Prop
  | handled :
      Handles (m.KeepsCallbacks i) i.call.given called m m' → Effect m i called m'
  | dialled {peers : List BRPeer} :
      i.call = .dial peers → m' = m.dial peers → called = [] → Effect m i called m'
  | left {peer : BRPeer} {error : ℕ} {es : List ManagerEvent} :
      i.call = .peerDisconnected peer error → m.peerDisconnected peer error = (m', es) →
      called = fired es → Effect m i called m'
  | rescanned :
      i.call = .beginRescan → m' = m.beginRescan i.env → called = [] → Effect m i called m'
  | relayed {peer : BRPeer} {block : ChainBlock} {es : List ManagerEvent} :
      i.call = .relayedBlock peer block → m.relayedBlock i.env peer block = .ok (m', es) →
      called = [] → Effect m i called m'

/-- What an event may do. -/
theorem step_effect
    {i : ManagerInput}
    (hl : m.toPublishLists.Parallel)
    (hocc : m.Occurs i)
    (h : m.step i = .ok (m', es)) :
    Effect m i (fired es) m' := by
  rcases i with ⟨env, call⟩
  cases call with
  | beginConnect =>
      obtain ⟨m₁, h₁, hret⟩ := bind_eq_ok.mp h
      cases hret
      exact .handled (beginConnect_handles _ h₁)
  | dial peers =>
      cases h
      exact .dialled rfl rfl rfl
  | peerConnected peer hs =>
      obtain ⟨m₁, h₁, hret⟩ := bind_eq_ok.mp h
      cases hret
      exact .handled (peerConnected_handles _ h₁)
  | peerDisconnected peer error =>
      exact .left rfl (Except.ok.inj h) rfl
  | relayedTx peer tx =>
      exact .handled (relayedTx_handles _ (hocc peer rfl) h)
  | hasTx peer txHash =>
      exact .handled (hasTx_handles _ (hocc peer rfl) h)
  | rejectedTx peer txHash =>
      obtain ⟨hes, hh⟩ := rejectedTx_handles _ h
      rw [hes]
      exact .handled hh
  | relayedBlock peer block =>
      exact .relayed rfl h (relayedBlock_tracks h).1
  | dataNotfound peer txHashes =>
      cases h
      exact .handled (dataNotfound_handles _ _ _ _)
  | requestedTx peer txHash =>
      exact .handled (requestedTx_handles _ (hocc peer rfl) hl h)
  | mempoolDone peer success =>
      cases h
      exact .handled (mempoolDone_handles _ (hocc peer rfl) success)
  | loadBloomFilterDone peer success =>
      cases h
      exact .handled (loadBloomFilterDone_handles _ _ _ _)
  | requestUnrelayedTxGetdataDone peer success =>
      obtain ⟨hes, hh⟩ := requestUnrelayedTxGetdataDone_handles _ h
      rw [hes]
      exact .handled hh
  | publishTxInvDone peer =>
      cases h
      exact .handled (requestUnrelayedTx_handles _ (hocc peer rfl))
  | updateFilterPingDone peer success =>
      obtain ⟨m₁, h₁, hret⟩ := bind_eq_ok.mp h
      cases hret
      exact .handled (updateFilterPingDone_handles _ h₁)
  | beginRescan =>
      cases h
      exact .rescanned rfl rfl rfl
  | disconnect =>
      cases h
      exact .handled (disconnect_handles _ _)
  | setFixedPeer address =>
      cases h
      exact .handled (.other rfl rfl (.refl _) rfl)
  | publishTx tx callback =>
      have heq : m.publishTx env tx callback = (m', es) := Except.ok.inj h
      have hh := publishTx_handles (m := m)
        (show m.KeepsCallbacks ⟨env, .publishTx tx callback⟩ → _ from id)
      rw [heq] at hh
      exact .handled hh
  | publishListed tx callback =>
      cases h
      exact .handled (addTxToPublishList_handles id)
  | wallet c =>
      obtain ⟨⟨w, events⟩, -, hret⟩ := bind_eq_ok.mp h
      cases hret
      rw [fired_wallet]
      exact .handled (.other rfl rfl (.refl _) rfl)

end BRPeerManager

end BreadwalletCore
