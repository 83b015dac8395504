import BreadwalletCore.PeerManager.Publish

/-!
# Which peers are counted for a transaction

`txRelays` and `txRequests` list a transaction once and a peer once for it.
The peers in `txRelays` are connected, so `BRPeerManagerRelayCount` counts the
connected peers that are noted for a transaction.

A peer that disconnects is taken out of `txRelays` but not out of `txRequests`.
-/

namespace BreadwalletCore

open Machine

namespace BRTxPeerList

/-- A transaction has one entry and a peer is in it once. -/
structure Sound (Live : BRPeer → Prop) (list : List BRTxPeerList) : Prop where
  unique : (list.map BRTxPeerList.txHash).Nodup
  nodup : ∀ e ∈ list, e.peers.Nodup
  live : ∀ e ∈ list, ∀ p ∈ e.peers, Live p

variable {Live Live' : BRPeer → Prop} {list : List BRTxPeerList} {txHash : UInt256}
variable {peer : BRPeer} {e : BRTxPeerList} {f : List BRPeer → List BRPeer}

theorem mem_of_find
    (h : find list txHash = some e) :
    e ∈ list ∧ e.txHash = txHash := by
  refine ⟨List.mem_reverse.mp (List.mem_of_find?_eq_some h), ?_⟩
  simpa using List.find?_some h

theorem map_txHash_modifyLast
    (f : List BRPeer → List BRPeer) (list : List BRTxPeerList) (txHash : UInt256) :
    (modifyLast f list txHash).map BRTxPeerList.txHash = list.map BRTxPeerList.txHash := by
  have hfirst : ∀ list : List BRTxPeerList,
      (modifyFirst f txHash list).map BRTxPeerList.txHash =
        list.map BRTxPeerList.txHash := by
    intro list
    induction list with
    | nil =>
        rfl
    | cons e list ih =>
        rw [modifyFirst]
        split
        · rfl
        · rw [List.map_cons, List.map_cons, ih]
  rw [modifyLast, List.map_reverse, hfirst, List.map_reverse, List.reverse_reverse]

theorem mem_modifyLast
    (h : e ∈ modifyLast f list txHash) :
    e ∈ list ∨ ∃ e₀, find list txHash = some e₀ ∧ e = { e₀ with peers := f e₀.peers } := by
  have hfirst : ∀ list : List BRTxPeerList, e ∈ modifyFirst f txHash list →
      e ∈ list ∨ ∃ e₀, list.find? (fun e => e.txHash = txHash) = some e₀ ∧
        e = { e₀ with peers := f e₀.peers } := by
    intro list
    induction list with
    | nil =>
        intro h
        cases h
    | cons x list ih =>
        intro h
        rw [modifyFirst] at h
        split at h
        · rename_i heq
          rcases List.mem_cons.mp h with rfl | h
          · exact Or.inr ⟨x, List.find?_cons_of_pos (by simpa using heq), rfl⟩
          · exact Or.inl (List.mem_cons_of_mem _ h)
        · rename_i hne
          rcases List.mem_cons.mp h with rfl | h
          · exact Or.inl List.mem_cons_self
          · rcases ih h with h | ⟨e₀, hfind, heq⟩
            · exact Or.inl (List.mem_cons_of_mem _ h)
            · refine Or.inr ⟨e₀, ?_, heq⟩
              rw [List.find?_cons_of_neg (by simpa using hne)]
              exact hfind
  rcases hfirst list.reverse (List.mem_reverse.mp h) with h | h
  · exact Or.inl (List.mem_reverse.mp h)
  · exact Or.inr h

theorem Sound.mono
    (h : Sound Live list)
    (himp : ∀ p, Live p → Live' p) :
    Sound Live' list :=
  ⟨h.unique, h.nodup, fun e he p hp => himp p (h.live e he p hp)⟩

theorem Sound.modifyLast
    (h : Sound Live list)
    (hf : ∀ e, find list txHash = some e → (f e.peers).Nodup ∧ ∀ p ∈ f e.peers, Live p) :
    Sound Live (modifyLast f list txHash) where
  unique := by
    rw [map_txHash_modifyLast]
    exact h.unique
  nodup e he := by
    rcases mem_modifyLast he with he | ⟨e₀, hfind, rfl⟩
    · exact h.nodup e he
    · exact (hf e₀ hfind).1
  live e he := by
    rcases mem_modifyLast he with he | ⟨e₀, hfind, rfl⟩
    · exact h.live e he
    · exact (hf e₀ hfind).2

theorem Sound.addPeer
    (h : Sound Live list) (txHash : UInt256)
    (hpeer : Live peer) :
    Sound Live (addPeer list txHash peer).1 := by
  rw [BRTxPeerList.addPeer]
  cases hfind : find list txHash with
  | none =>
      have hnew : ∀ e ∈ list, e.txHash ≠ txHash := by
        intro e he
        simpa using List.find?_eq_none.mp hfind e (List.mem_reverse.mpr he)
      refine ⟨?_, ?_, ?_⟩
      · rw [List.map_append, List.nodup_append]
        refine ⟨h.unique, List.nodup_singleton _, ?_⟩
        intro a ha b hb heq
        obtain ⟨e, he, rfl⟩ := List.mem_map.mp ha
        exact hnew e he (heq.trans (List.mem_singleton.mp hb))
      · intro e he
        rcases List.mem_append.mp he with he | he
        · exact h.nodup e he
        · rw [List.mem_singleton.mp he]
          exact List.nodup_singleton peer
      · intro e he
        rcases List.mem_append.mp he with he | he
        · exact h.live e he
        · intro p hp
          rw [List.mem_singleton.mp he] at hp
          exact List.mem_singleton.mp hp ▸ hpeer
  | some e =>
      dsimp only
      split
      · exact h
      · rename_i hnot
        refine h.modifyLast ?_
        intro e' he'
        rw [hfind] at he'
        cases he'
        have he := (mem_of_find hfind).1
        refine ⟨?_, ?_⟩
        · rw [← List.concat_eq_append]
          exact (h.nodup e he).concat hnot
        intro p hp
        rcases List.mem_append.mp hp with hp | hp
        · exact h.live e he p hp
        · exact List.mem_singleton.mp hp ▸ hpeer

theorem Sound.removePeer
    (h : Sound Live list) (txHash : UInt256) (peer : BRPeer) :
    Sound Live (removePeer list txHash peer).1 := by
  rw [BRTxPeerList.removePeer]
  split
  · refine h.modifyLast ?_
    intro e hfind
    have he := (mem_of_find hfind).1
    have hsub : List.Sublist (KeyedList.eraseLast id e.peers peer) e.peers :=
      KeyedList.eraseLast_sublist e.peers peer
    exact ⟨(h.nodup e he).sublist hsub, fun p hp => h.live e he p (hsub.subset hp)⟩
  · exact h

theorem Sound.remove
    (h : Sound Live list) (txHash : UInt256) :
    Sound Live (KeyedList.remove (·.txHash) list txHash) where
  unique := h.unique.sublist (List.filter_sublist.map _)
  nodup e he := h.nodup e (List.mem_filter.mp he).1
  live e he := h.live e (List.mem_filter.mp he).1

/-- The peer is gone from every entry. -/
theorem Sound.rmPeer
    (h : Sound Live list) (peer : BRPeer) :
    Sound (fun p => Live p ∧ p ≠ peer) (BRPeerManager.rmPeer peer list) where
  unique := by
    rw [BRPeerManager.rmPeer, List.map_map]
    exact h.unique
  nodup e he := by
    obtain ⟨e₀, he₀, rfl⟩ := List.mem_map.mp he
    exact (h.nodup e₀ he₀).filter _
  live e he p hp := by
    obtain ⟨e₀, he₀, rfl⟩ := List.mem_map.mp he
    obtain ⟨hp, hne⟩ := List.mem_filter.mp hp
    exact ⟨h.live e₀ he₀ p hp, by simpa using hne⟩

/-- **The count.** It is the number of live peers that are listed. -/
theorem Sound.count_eq
    {peers : List BRPeer}
    (h : Sound (· ∈ peers) list)
    (hpeers : peers.Nodup) (txHash : UInt256) :
    count list txHash = (peers.filter (fun p => hasPeer list txHash p)).length := by
  cases hfind : find list txHash with
  | none =>
      have hnone : peers.filter (fun p => hasPeer list txHash p) = [] := by
        rw [List.filter_eq_nil_iff]
        intro p _
        rw [hasPeer, hfind]
        simp
      rw [count, hfind, hnone]
      rfl
  | some e =>
      have he := (mem_of_find hfind).1
      have hperm : List.Perm e.peers (peers.filter (fun p => hasPeer list txHash p)) := by
        rw [List.perm_ext_iff_of_nodup (h.nodup e he) (hpeers.filter _)]
        intro p
        rw [List.mem_filter, hasPeer, hfind]
        constructor
        · intro hp
          exact ⟨h.live e he p hp, by simpa using hp⟩
        · rintro ⟨-, hp⟩
          simpa using hp
      rw [count, hfind]
      exact hperm.length_eq

end BRTxPeerList

/-! ## Moves -/

section Moves

open BRTxPeerList

variable {Live LiveR LiveQ : BRPeer → Prop} {strict : Prop} {l l' : TxLists}
variable {given called : List ℕ}

theorem Move.sound
    (hr : ∀ p, Live p → LiveR p)
    (hq : ∀ p, Live p → LiveQ p)
    (hl : Sound LiveR l.txRelays ∧ Sound LiveQ l.txRequests)
    (h : Move Live strict l given called l') :
    Sound LiveR l'.txRelays ∧ Sound LiveQ l'.txRequests := by
  cases h with
  | relay txHash hlive =>
      exact ⟨hl.1.addPeer txHash (hr _ hlive), hl.2⟩
  | request txHash hlive =>
      exact ⟨hl.1, hl.2.addPeer txHash (hq _ hlive)⟩
  | rmRelay peer txHash =>
      exact ⟨hl.1.removePeer txHash peer, hl.2⟩
  | rmRequest peer txHash =>
      exact ⟨hl.1, hl.2.removePeer txHash peer⟩
  | leave peer =>
      exact ⟨(hl.1.rmPeer peer).mono (fun _ h => h.1), hl.2⟩
  | confirm txHash _ =>
      exact ⟨hl.1.remove txHash, hl.2⟩
  | _ =>
      exact hl

theorem Moves.sound
    (hr : ∀ p, Live p → LiveR p)
    (hq : ∀ p, Live p → LiveQ p)
    (hl : Sound LiveR l.txRelays ∧ Sound LiveQ l.txRequests)
    (h : Moves Live strict l given called l') :
    Sound LiveR l'.txRelays ∧ Sound LiveQ l'.txRequests := by
  induction h with
  | nil l =>
      exact hl
  | cons hmove _ ih =>
      exact ih (hmove.sound hr hq hl)

end Moves

/-! ## Runs -/

namespace BRPeerManager

open BRTxPeerList

variable {env : Env} {m₀ m m' : BRPeerManager} {i : ManagerInput} {is : List ManagerInput}
variable {called : List ℕ} {es : List ManagerEvent} {strict : Prop}

/-- A peer that disconnects has been asked for nothing that it still owes. -/
def LeavesAnswered (m : BRPeerManager) (i : ManagerInput) : Prop :=
  ∀ peer error, i.call = .peerDisconnected peer error → ∀ e ∈ m.txRequests, peer ∉ e.peers

/-- What holds of the lists and the connections in every run; strictly, also
that the requests are those of connected peers. -/
structure Counted (strict : Prop) (m : BRPeerManager) : Prop where
  parallel : m.toPublishLists.Parallel
  connected : m.connectedPeers.Nodup
  relays : Sound (· ∈ m.connectedPeers) m.txRelays
  requests : Sound (fun p => strict → p ∈ m.connectedPeers) m.txRequests

theorem pickPeer_ok
    {connectedPeers : List BRPeer}
    (hnodup : connectedPeers.Nodup) (maxConnectCount : ℕ) (peers : List BRPeer) :
    (peers.foldl (pickPeer maxConnectCount) connectedPeers).Nodup ∧
      connectedPeers ⊆ peers.foldl (pickPeer maxConnectCount) connectedPeers := by
  induction peers generalizing connectedPeers with
  | nil =>
      exact ⟨hnodup, List.Subset.refl _⟩
  | cons p peers ih =>
      have hone : (pickPeer maxConnectCount connectedPeers p).Nodup ∧
          connectedPeers ⊆ pickPeer maxConnectCount connectedPeers p := by
        rw [pickPeer]
        split
        · rename_i hnew
          refine ⟨?_, List.subset_append_left _ _⟩
          rw [← List.concat_eq_append]
          exact hnodup.concat hnew.2
        · exact ⟨hnodup, List.Subset.refl _⟩
      obtain ⟨hn, hsub⟩ := ih hone.1
      exact ⟨hn, List.Subset.trans hone.2 hsub⟩

/-- Moves of connected peers, where nobody comes or goes. -/
theorem Counted.tracks
    {strict' : Prop} {given : List ℕ}
    (hm : Counted strict m)
    (h : Tracks strict' given called m m') :
    Counted strict m' := by
  obtain ⟨hrelays, hrequests⟩ :=
    h.moves.sound (fun _ hp => hp) (fun _ hp _ => hp) ⟨hm.relays, hm.requests⟩
  refine ⟨(h.moves.balanced hm.parallel).1, ?_, ?_, ?_⟩ <;> rw [h.connectedPeers]
  · exact hm.connected
  · exact hrelays
  · exact hrequests

/-- One event. -/
theorem Counted.step
    (hm : Counted strict m)
    (hanswered : strict → m.LeavesAnswered i)
    (h : Effect m i called m') :
    Counted strict m' := by
  have hparallel := (h.moves.balanced hm.parallel).1
  cases h with
  | handled h =>
      exact hm.tracks h.toTracks
  | @dialled peers _ hm' _ =>
      subst hm'
      have hlists := (m.dial_frame peers).1
      have hrelays : (m.dial peers).txRelays = m.txRelays :=
        congrArg (fun l : TxLists => l.txRelays) hlists
      have hrequests : (m.dial peers).txRequests = m.txRequests :=
        congrArg (fun l : TxLists => l.txRequests) hlists
      obtain ⟨hnodup, hsub⟩ := pickPeer_ok hm.connected m.maxConnectCount peers
      rw [← dial_connectedPeers] at hnodup hsub
      refine ⟨hparallel, hnodup, ?_, ?_⟩
      · rw [hrelays]
        exact hm.relays.mono (fun _ hp => hsub hp)
      · rw [hrequests]
        exact hm.requests.mono (fun _ hp hs => hsub (hp hs))
  | @left peer error es hcall hleft _ =>
      obtain ⟨-, hpeers, hlists, -, -⟩ := peerDisconnected_ok (fun _ => True) True m peer error hleft
      have hrelays : m'.txRelays = rmPeer peer m.txRelays := by
        rw [hlists]
      have hrequests : m'.txRequests = m.txRequests := by
        rw [hlists]
      rw [KeyedList.eraseLast_eq_filter (by simpa using hm.connected)] at hpeers
      have hmem : ∀ p, p ∈ m.connectedPeers → p ≠ peer → p ∈ m'.connectedPeers := by
        intro p hp hne
        rw [hpeers]
        exact List.mem_filter.mpr ⟨hp, by simpa using hne⟩
      refine ⟨hparallel, ?_, ?_, ?_⟩
      · rw [hpeers]
        exact hm.connected.filter _
      · rw [hrelays]
        exact (hm.relays.rmPeer peer).mono (fun p hp => hmem p hp.1 hp.2)
      · rw [hrequests]
        refine ⟨hm.requests.unique, hm.requests.nodup, ?_⟩
        -- here the condition is needed: the entries keep the peer
        intro e he p hp hs
        refine hmem p (hm.requests.live e he p hp hs) ?_
        rintro rfl
        exact hanswered hs p error hcall e he hp
  | rescanned _ hm' _ =>
      subst hm'
      obtain ⟨hlists, hpeers, -⟩ := m.beginRescan_frame i.env
      have hrelays : (m.beginRescan i.env).txRelays = m.txRelays :=
        congrArg (fun l : TxLists => l.txRelays) hlists
      have hrequests : (m.beginRescan i.env).txRequests = m.txRequests :=
        congrArg (fun l : TxLists => l.txRequests) hlists
      refine ⟨hparallel, ?_, ?_, ?_⟩ <;> rw [hpeers]
      · exact hm.connected
      · rw [hrelays]
        exact hm.relays
      · rw [hrequests]
        exact hm.requests
  | relayed _ hrelay _ =>
      exact hm.tracks (relayedBlock_tracks hrelay).2

theorem Counted.new
    {wallet : BRWallet} {earliestKeyTime : UInt32} {blocks : List ChainBlock}
    (hnew : BRPeerManager.new env wallet earliestKeyTime blocks = .ok m₀) :
    Counted strict m₀ := by
  obtain ⟨s, -, hret⟩ := bind_eq_ok.mp hnew
  cases hret
  have hnil : ∀ Live : BRPeer → Prop, Sound Live [] :=
    fun Live => ⟨List.nodup_nil, by simp, by simp⟩
  exact ⟨⟨rfl, List.nodup_nil⟩, List.nodup_nil, hnil _, hnil _⟩

theorem Counted.run
    {wallet : BRWallet} {earliestKeyTime : UInt32} {blocks : List ChainBlock}
    (hnew : BRPeerManager.new env wallet earliestKeyTime blocks = .ok m₀)
    (hguard : Guarded BRPeerManager.step
      (fun m i => m.Occurs i ∧ (strict → m.LeavesAnswered i)) m₀ is)
    (hrun : m₀.runEvents is = .ok (m, es)) :
    Counted strict m := by
  have hstep : ∀ m i m' o, Counted strict m → m.Occurs i ∧ (strict → m.LeavesAnswered i) →
      m.step i = .ok (m', o) → Counted strict m' := by
    rintro m i m' o hm ⟨hocc, hanswered⟩ hs
    exact hm.step hanswered (step_effect hm.parallel hocc hs)
  exact run_state_invariant hstep (Counted.new hnew) hguard hrun

/-- **Relay counts.** In every run each transaction has one entry, each peer is
in an entry once, the peers of `txRelays` are connected and a relay count is the
number of the connected peers that are listed.  Where no peer leaves that is
still asked for a transaction, the same holds of `txRequests`, and the counts
that decide about an unrelayed transaction are both zero just if no connected
peer has relayed it or is asked for it. -/
theorem relay_counts
    {wallet : BRWallet} {earliestKeyTime : UInt32} {blocks : List ChainBlock}
    (hnew : BRPeerManager.new env wallet earliestKeyTime blocks = .ok m₀)
    (hocc : Guarded BRPeerManager.step BRPeerManager.Occurs m₀ is)
    (hrun : m₀.runEvents is = .ok (m, es)) :
    (m.txRelays.map BRTxPeerList.txHash).Nodup ∧
      (m.txRequests.map BRTxPeerList.txHash).Nodup ∧
      (∀ e ∈ m.txRelays, e.peers.Nodup) ∧ (∀ e ∈ m.txRequests, e.peers.Nodup) ∧
      (∀ e ∈ m.txRelays, ∀ p ∈ e.peers, p ∈ m.connectedPeers) ∧ m.connectedPeers.Nodup ∧
      (∀ txHash, m.relayCount txHash =
        (m.connectedPeers.filter (fun p => hasPeer m.txRelays txHash p)).length) ∧
      (Guarded BRPeerManager.step LeavesAnswered m₀ is →
        (∀ e ∈ m.txRequests, ∀ p ∈ e.peers, p ∈ m.connectedPeers) ∧
          ∀ txHash, (count m.txRelays txHash = 0 ∧ count m.txRequests txHash = 0 ↔
            ∀ p ∈ m.connectedPeers, hasPeer m.txRelays txHash p = false ∧
              hasPeer m.txRequests txHash p = false)) := by
  have hany : Guarded BRPeerManager.step
      (fun m i => m.Occurs i ∧ (False → m.LeavesAnswered i)) m₀ is :=
    hocc.mono (fun _ _ h => ⟨h, False.elim⟩)
  have hm : Counted False m := .run hnew hany hrun
  refine ⟨hm.relays.unique, hm.requests.unique, hm.relays.nodup, hm.requests.nodup,
    hm.relays.live, hm.connected, fun h => hm.relays.count_eq hm.connected h, ?_⟩
  intro hanswered
  have hstrict : Guarded BRPeerManager.step
      (fun m i => m.Occurs i ∧ (True → m.LeavesAnswered i)) m₀ is :=
    (hocc.and hanswered).mono (fun _ _ h => ⟨h.1, fun _ => h.2⟩)
  have hm' : Counted True m := .run hnew hstrict hrun
  have hrequests : Sound (· ∈ m.connectedPeers) m.txRequests :=
    hm'.requests.mono (fun _ hp => hp trivial)
  refine ⟨hrequests.live, ?_⟩
  intro txHash
  rw [hm.relays.count_eq hm.connected, hrequests.count_eq hm.connected, List.length_eq_zero_iff,
    List.length_eq_zero_iff, List.filter_eq_nil_iff, List.filter_eq_nil_iff]
  simp only [Bool.not_eq_true]
  exact ⟨fun h p hp => ⟨h.1 p hp, h.2 p hp⟩,
    fun h => ⟨fun p hp => (h p hp).1, fun p hp => (h p hp).2⟩⟩

end BRPeerManager

section Counterexample

/-- A wallet with a payment that is not confirmed yet. -/
def waitingWallet : BRWallet :=
  sampleNew [sampleTx 1 [⟨99, 0⟩] [1, 0] 50000 txUnconfirmed]

/-- A peer connects and is asked for the payment. -/
def askPeer : List ManagerInput :=
  [⟨quietEnv testCheckpoints, .dial [samplePeer]⟩,
    ⟨quietEnv testCheckpoints, .publishTxInvDone samplePeer⟩]

/-- The peer disconnects. -/
def leavePeer : ManagerInput :=
  ⟨quietEnv testCheckpoints, .peerDisconnected samplePeer 0⟩

/-- A dialled peer is connected. -/
theorem askPeer_occurs
    {wallet : BRWallet} {m₀ : BRPeerManager} {rest : List ManagerInput}
    (hnew : BRPeerManager.new (quietEnv testCheckpoints) wallet 0 [] = .ok m₀)
    (hrest : ∀ m, samplePeer ∈ m.connectedPeers →
      Guarded BRPeerManager.step BRPeerManager.Occurs m rest) :
    Guarded BRPeerManager.step BRPeerManager.Occurs m₀ (askPeer ++ rest) := by
  cases hnew
  change Guarded _ _ _ (_ :: _ :: rest)
  refine ⟨?_, ?_⟩
  · rintro peer ⟨⟩
  intro m es hs
  cases hs
  refine ⟨?_, ?_⟩
  · intro peer hpeer
    cases hpeer
    exact List.mem_singleton_self samplePeer
  · intro m' es' hs'
    cases hs'
    refine hrest _ ?_
    rw [(BRPeerManager.requestUnrelayedTx_handles True
      (List.mem_singleton_self samplePeer)).connectedPeers]
    exact List.mem_singleton_self samplePeer

/-- While the peer is connected, the counts are those of connected peers. -/
theorem relay_counts_asked :
    ∃ m₀ m es, BRPeerManager.new (quietEnv testCheckpoints) waitingWallet 0 [] = .ok m₀ ∧
      m₀.runEvents askPeer = .ok (m, es) ∧ m.txRequests = [⟨1, [samplePeer]⟩] ∧
      ∀ e ∈ m.txRequests, ∀ p ∈ e.peers, p ∈ m.connectedPeers := by
  obtain ⟨m₀, m, es, hnew, hrun, hasked⟩ :
      ∃ m₀ m es, BRPeerManager.new (quietEnv testCheckpoints) waitingWallet 0 [] = .ok m₀ ∧
        m₀.runEvents askPeer = .ok (m, es) ∧ m.txRequests = [⟨1, [samplePeer]⟩] :=
    ⟨_, _, _, rfl, rfl, rfl⟩
  have hocc : Guarded BRPeerManager.step BRPeerManager.Occurs m₀ askPeer := by
    rw [← List.append_nil askPeer]
    exact askPeer_occurs hnew (fun _ _ => trivial)
  have hanswered : Guarded BRPeerManager.step BRPeerManager.LeavesAnswered m₀ askPeer := by
    refine ⟨?_, fun _ _ _ => ⟨?_, fun _ _ _ => trivial⟩⟩ <;> rintro peer error ⟨⟩
  obtain ⟨-, -, -, -, -, -, -, hrequests⟩ := BRPeerManager.relay_counts hnew hocc hrun
  exact ⟨m₀, m, es, hnew, hrun, hasked, (hrequests hanswered).1⟩

/-- Behind the disconnect it is still listed as asked. -/
theorem not_relay_counts :
    ∃ m₀ m es, BRPeerManager.new (quietEnv testCheckpoints) waitingWallet 0 [] = .ok m₀ ∧
      Guarded BRPeerManager.step BRPeerManager.Occurs m₀ (askPeer ++ [leavePeer]) ∧
      m₀.runEvents (askPeer ++ [leavePeer]) = .ok (m, es) ∧
      m.txRequests = [⟨1, [samplePeer]⟩] ∧ m.connectedPeers = [] := by
  refine ⟨_, _, _, rfl, ?_, rfl, rfl, rfl⟩
  refine askPeer_occurs rfl (fun m hm => ⟨?_, fun _ _ _ => trivial⟩)
  rintro peer ⟨⟩
  exact hm

end Counterexample

end BreadwalletCore
