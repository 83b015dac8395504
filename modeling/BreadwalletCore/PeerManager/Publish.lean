import BreadwalletCore.PeerManager.Effects

/-!
# The callbacks of published transactions

A callback that `BRPeerManagerPublishTx` is given waits in an entry of
`publishedTx` until some event calls it.  Every move of the transaction lists
keeps the books: a callback is not more often waiting or called than it was
waiting or given before.  A strict sequence of moves loses none.

Two branches do lose one: the call for a transaction that is listed already, or
confirmed, returns without noting its callback, and a block that confirms a
transaction drops its entry without a call.
-/

namespace BreadwalletCore

open Machine

namespace PublishLists

variable {l : PublishLists} {txHash : UInt256}

theorem rm_map
    (p : BRPublishedTx → Bool) (publishedTx : List BRPublishedTx) :
    rm p publishedTx (publishedTx.map (fun e => e.tx.txHash)) =
      ⟨publishedTx.filter (fun e => ! p e),
        (publishedTx.filter (fun e => ! p e)).map (fun e => e.tx.txHash)⟩ := by
  induction publishedTx with
  | nil =>
      rfl
  | cons e publishedTx ih =>
      rw [List.map_cons, rm, ih]
      cases hp : p e with
      | false =>
          rw [List.filter_cons_of_pos (by simp [hp])]
          rfl
      | true =>
          rw [List.filter_cons_of_neg (by simp [hp])]
          rfl

theorem silence_map
    (txHash : UInt256) (publishedTx : List BRPublishedTx) (publishedTxHashes : List UInt256) :
    (silence txHash publishedTx publishedTxHashes).map (fun e => e.tx.txHash) =
      publishedTx.map (fun e => e.tx.txHash) := by
  induction publishedTx generalizing publishedTxHashes with
  | nil =>
      cases publishedTxHashes <;> rfl
  | cons e publishedTx ih =>
      cases publishedTxHashes with
      | nil =>
          rfl
      | cons h publishedTxHashes =>
          rw [silence, List.map_cons, List.map_cons, ih]
          split <;> rfl

theorem Parallel.rm
    (hl : l.Parallel) (p : BRPublishedTx → Bool) :
    (rm p l.publishedTx l.publishedTxHashes).Parallel := by
  rw [hl.hashes, rm_map]
  refine ⟨rfl, ?_⟩
  have hsub : List.Sublist ((l.publishedTx.filter (fun e => ! p e)).map (fun e => e.tx.txHash))
      l.publishedTxHashes := by
    rw [hl.hashes]
    exact List.filter_sublist.map _
  exact hl.nodup.sublist hsub

theorem Parallel.silence
    (hl : l.Parallel) (txHash : UInt256) :
    Parallel
      { l with publishedTx := silence txHash l.publishedTx l.publishedTxHashes } where
  hashes := by
    rw [silence_map]
    exact hl.hashes
  nodup := hl.nodup

theorem Parallel.list
    (hl : l.Parallel) {tx : BRTransaction} {callback : Option ℕ}
    (hnew : ∀ e ∈ l.publishedTx, e.tx.txHash ≠ tx.txHash) :
    Parallel
      { publishedTx := l.publishedTx ++ [⟨tx, callback⟩]
        publishedTxHashes := l.publishedTxHashes ++ [tx.txHash] } where
  hashes := by simp [hl.hashes]
  nodup := by
    rw [List.nodup_append]
    refine ⟨hl.nodup, List.nodup_singleton _, ?_⟩
    intro h hh h' hh' heq
    rw [hl.hashes] at hh
    obtain ⟨e, he, rfl⟩ := List.mem_map.mp hh
    rw [List.mem_singleton.mp hh'] at heq
    exact hnew e he heq

theorem Parallel.hash_mem
    (hl : l.Parallel) {e : BRPublishedTx} (he : e ∈ l.publishedTx) :
    e.tx.txHash ∈ l.publishedTxHashes := by
  rw [hl.hashes]
  exact List.mem_map_of_mem he

theorem Parallel.cons
    (hl : l.Parallel) {e : BRPublishedTx}
    (hnew : e.tx.txHash ∉ l.publishedTxHashes) :
    Parallel ⟨e :: l.publishedTx, e.tx.txHash :: l.publishedTxHashes⟩ where
  hashes := by rw [List.map_cons, hl.hashes]
  nodup := List.nodup_cons.mpr ⟨hnew, hl.nodup⟩

/-- Entry by entry; the first one is listed once. -/
theorem Parallel.induction
    {motive : ∀ l : PublishLists, l.Parallel → Prop}
    (nil : motive ⟨[], []⟩ ⟨rfl, List.nodup_nil⟩)
    (cons : ∀ (e : BRPublishedTx) (publishedTx : List BRPublishedTx)
      (publishedTxHashes : List UInt256) (hl : Parallel ⟨publishedTx, publishedTxHashes⟩)
      (hnew : e.tx.txHash ∉ publishedTxHashes), motive ⟨publishedTx, publishedTxHashes⟩ hl →
        motive ⟨e :: publishedTx, e.tx.txHash :: publishedTxHashes⟩ (hl.cons hnew))
    (l : PublishLists) (hl : l.Parallel) :
    motive l hl := by
  obtain ⟨publishedTx, publishedTxHashes⟩ := l
  obtain rfl : publishedTxHashes = publishedTx.map (fun e => e.tx.txHash) := hl.hashes
  induction publishedTx with
  | nil =>
      exact nil
  | cons e publishedTx ih =>
      have hnodup := hl.nodup
      rw [List.map_cons, List.nodup_cons] at hnodup
      exact cons e publishedTx _ ⟨rfl, hnodup.2⟩ hnodup.1 (ih ⟨rfl, hnodup.2⟩)

/-! ## Counting callbacks -/

theorem count_waiting_cons
    (e : BRPublishedTx) (publishedTx : List BRPublishedTx) (c : ℕ) :
    (waiting (e :: publishedTx)).count c =
      e.callback.toList.count c + (waiting publishedTx).count c := by
  rw [waiting, List.filterMap_cons]
  cases e.callback with
  | none =>
      simp [waiting]
  | some d =>
      simp only [waiting, Option.toList_some, List.count_cons, List.count_nil]
      omega

/-- What gives up its callback and what keeps it. -/
theorem count_silence
    (hl : l.Parallel) (txHash : UInt256) (c : ℕ) :
    (waiting (silence txHash l.publishedTx l.publishedTxHashes)).count c +
        (l.callbackFor txHash).toList.count c =
      (waiting l.publishedTx).count c := by
  induction l, hl using Parallel.induction with
  | nil =>
      rfl
  | cons e publishedTx publishedTxHashes hl hnew ih =>
      dsimp only at ih ⊢
      rw [callbackFor_cons, silence, count_waiting_cons, count_waiting_cons]
      by_cases heq : e.tx.txHash = txHash
      · rw [if_pos heq, if_pos heq, silence_of_notMem (heq ▸ hnew)]
        simp only [Option.toList_none, List.count_nil]
        omega
      · rw [if_neg heq, if_neg heq]
        omega

/-- What is removed and what stays. -/
theorem count_filter
    (p : BRPublishedTx → Bool) (publishedTx : List BRPublishedTx) (c : ℕ) :
    (waiting (publishedTx.filter (fun e => ! p e))).count c +
        (waiting (publishedTx.filter p)).count c =
      (waiting publishedTx).count c := by
  induction publishedTx with
  | nil =>
      rfl
  | cons e publishedTx ih =>
      rw [count_waiting_cons]
      cases hp : p e with
      | false =>
          rw [List.filter_cons_of_pos (by simp [hp]), List.filter_cons_of_neg (by simp [hp]),
            count_waiting_cons]
          omega
      | true =>
          rw [List.filter_cons_of_neg (by simp [hp]), List.filter_cons_of_pos (by simp [hp]),
            count_waiting_cons]
          omega

/-- At most one entry is removed for a hash. -/
theorem waiting_named
    (hl : l.Parallel) (txHash : UInt256) :
    waiting (l.publishedTx.filter (fun e => txHash = e.tx.txHash)) =
      (l.callbackFor txHash).toList := by
  induction l, hl using Parallel.induction with
  | nil =>
      rfl
  | cons e publishedTx publishedTxHashes hl hnew ih =>
      dsimp only at ih ⊢
      rw [callbackFor_cons]
      by_cases heq : e.tx.txHash = txHash
      · have hnil : publishedTx.filter (fun e => decide (txHash = e.tx.txHash)) = [] := by
          rw [List.filter_eq_nil_iff]
          intro x hx hxe
          refine hnew ?_
          rw [heq, of_decide_eq_true hxe]
          exact hl.hash_mem hx
        rw [List.filter_cons_of_pos (by simp [heq]), hnil, if_pos heq, waiting,
          List.filterMap_cons]
        cases e.callback <;> rfl
      · rw [List.filter_cons_of_neg (by simpa using Ne.symm heq), if_neg heq]
        exact ih

theorem callbackFor_of_mem
    (hl : l.Parallel) {e : BRPublishedTx} (he : e ∈ l.publishedTx) :
    l.callbackFor e.tx.txHash = e.callback := by
  induction l, hl using Parallel.induction with
  | nil =>
      cases he
  | cons x publishedTx publishedTxHashes hl hnew ih =>
      rw [callbackFor_cons]
      rcases List.mem_cons.mp he with rfl | he
      · rw [if_pos rfl]
      · have hne : x.tx.txHash ≠ e.tx.txHash := by
          intro heq
          refine hnew ?_
          rw [heq]
          exact hl.hash_mem he
        rw [if_neg hne]
        exact ih he

theorem mem_silence
    (hl : l.Parallel) {e : BRPublishedTx} (he : e ∈ l.publishedTx)
    (hne : e.tx.txHash ≠ txHash) :
    e ∈ silence txHash l.publishedTx l.publishedTxHashes := by
  rw [hl.hashes]
  generalize l.publishedTx = publishedTx at he ⊢
  induction publishedTx with
  | nil =>
      cases he
  | cons x publishedTx ih =>
      rw [List.map_cons, silence]
      rcases List.mem_cons.mp he with rfl | he
      · rw [if_neg hne]
        exact List.mem_cons_self
      · exact List.mem_cons_of_mem _ (ih he)

end PublishLists

/-! ## The books -/

/-- A callback is not more often waiting or called than it was waiting or given
before, and just as often where the moves are strict. -/
def Balanced (strict : Prop) (l : TxLists) (given called : List ℕ) (l' : TxLists) : Prop :=
  ∀ c,
    (waiting l'.publishedTx).count c + called.count c ≤
        (waiting l.publishedTx).count c + given.count c ∧
      (strict → (waiting l'.publishedTx).count c + called.count c =
        (waiting l.publishedTx).count c + given.count c)

section Books

variable {Live : BRPeer → Prop} {strict : Prop} {l l₁ l' : TxLists}
variable {given given' called called' : List ℕ}

theorem Balanced.of_eq
    (h : ∀ c, (waiting l'.publishedTx).count c + called.count c =
      (waiting l.publishedTx).count c + given.count c) :
    Balanced strict l given called l' :=
  fun c => ⟨(h c).le, fun _ => h c⟩

theorem Balanced.trans
    (h₁ : Balanced strict l given called l₁)
    (h₂ : Balanced strict l₁ given' called' l') :
    Balanced strict l (given ++ given') (called ++ called') l' := by
  intro c
  obtain ⟨hle₁, heq₁⟩ := h₁ c
  obtain ⟨hle₂, heq₂⟩ := h₂ c
  rw [List.count_append, List.count_append]
  refine ⟨by omega, ?_⟩
  intro hs
  have := heq₁ hs
  have := heq₂ hs
  omega

/-- One move keeps the arrays parallel and the books balanced. -/
theorem Move.balanced
    (hl : l.toPublishLists.Parallel)
    (h : Move Live strict l given called l') :
    l'.toPublishLists.Parallel ∧ Balanced strict l given called l' := by
  cases h with
  | relay _ _ =>
      exact ⟨hl, .of_eq (fun _ => rfl)⟩
  | request _ _ =>
      exact ⟨hl, .of_eq (fun _ => rfl)⟩
  | rmRelay _ _ =>
      exact ⟨hl, .of_eq (fun _ => rfl)⟩
  | rmRequest _ _ =>
      exact ⟨hl, .of_eq (fun _ => rfl)⟩
  | leave _ =>
      exact ⟨hl, .of_eq (fun _ => rfl)⟩
  | confirm txHash hquiet =>
      refine ⟨hl.rm _, ?_⟩
      intro c
      have hcount := PublishLists.count_filter
        (fun e => decide (txHash = e.tx.txHash)) l.publishedTx c
      dsimp only
      rw [hl.hashes, PublishLists.rm_map]
      refine ⟨by simp only [List.count_nil]; omega, ?_⟩
      intro hs
      have hnil : waiting (l.publishedTx.filter (fun e => decide (txHash = e.tx.txHash))) = [] := by
        rw [waiting, List.filterMap_eq_nil_iff]
        intro e he
        obtain ⟨he, heq⟩ := List.mem_filter.mp he
        exact hquiet hs e he (of_decide_eq_true heq).symm
      rw [hnil] at hcount
      simp only [List.count_nil] at hcount ⊢
      omega
  | answer txHash =>
      refine ⟨hl.silence txHash, .of_eq ?_⟩
      intro c
      exact PublishLists.count_silence hl txHash c
  | reject txHash =>
      refine ⟨hl.rm _, .of_eq ?_⟩
      intro c
      have hcount := PublishLists.count_filter
        (fun e => decide (txHash = e.tx.txHash)) l.publishedTx c
      rw [PublishLists.waiting_named hl] at hcount
      dsimp only
      rw [hl.hashes, PublishLists.rm_map]
      exact hcount
  | list tx callback hnew =>
      refine ⟨hl.list hnew, .of_eq ?_⟩
      intro c
      dsimp only
      rw [waiting, List.filterMap_append, List.count_append]
      cases callback <;> rfl
  | refuse callback =>
      exact ⟨hl, .of_eq (fun _ => rfl)⟩
  | lose callback hlose =>
      refine ⟨hl, ?_⟩
      intro c
      refine ⟨by simp only [List.count_nil]; omega, ?_⟩
      intro hs
      rw [hlose hs]
      rfl
  | cancel =>
      refine ⟨hl.rm _, .of_eq ?_⟩
      intro c
      have hnil : waiting (l.publishedTx.filter (fun e => ! decide (e.callback ≠ none))) = [] := by
        rw [waiting, List.filterMap_eq_nil_iff]
        intro e he
        simpa using (List.mem_filter.mp he).2
      dsimp only
      rw [hl.hashes, PublishLists.rm_map, hnil, List.count_reverse]
      simp only [List.count_nil]
      omega

theorem Moves.balanced
    (hl : l.toPublishLists.Parallel)
    (h : Moves Live strict l given called l') :
    l'.toPublishLists.Parallel ∧ Balanced strict l given called l' := by
  induction h with
  | nil l =>
      exact ⟨hl, .of_eq (fun _ => rfl)⟩
  | cons hmove _ ih =>
      obtain ⟨hl₁, hb₁⟩ := hmove.balanced hl
      obtain ⟨hl', hb'⟩ := ih hl₁
      exact ⟨hl', hb₁.trans hb'⟩

/-- **No entry gets lost.** An entry with a callback stays as it is, or its
callback is called. -/
theorem Move.keeps
    (hl : l.toPublishLists.Parallel)
    (hs : strict)
    (h : Move Live strict l given called l')
    {e : BRPublishedTx} {c : ℕ}
    (he : e ∈ l.publishedTx)
    (hc : e.callback = some c) :
    e ∈ l'.publishedTx ∨ c ∈ called := by
  cases h with
  | confirm txHash hquiet =>
      left
      dsimp only
      rw [hl.hashes, PublishLists.rm_map]
      refine List.mem_filter.mpr ⟨he, ?_⟩
      have hne : txHash ≠ e.tx.txHash := by
        intro heq
        rw [hquiet hs e he heq.symm] at hc
        cases hc
      simpa using hne
  | answer txHash =>
      by_cases heq : e.tx.txHash = txHash
      · right
        rw [← heq, PublishLists.callbackFor_of_mem hl he, hc]
        exact List.mem_singleton_self c
      · left
        exact PublishLists.mem_silence hl he heq
  | reject txHash =>
      by_cases heq : txHash = e.tx.txHash
      · right
        rw [heq, PublishLists.callbackFor_of_mem hl he, hc]
        exact List.mem_singleton_self c
      · left
        dsimp only
        rw [hl.hashes, PublishLists.rm_map]
        exact List.mem_filter.mpr ⟨he, by simpa using heq⟩
  | list tx callback hnew =>
      exact Or.inl (List.mem_append_left _ he)
  | cancel =>
      right
      exact List.mem_reverse.mpr (List.mem_filterMap.mpr ⟨e, he, hc⟩)
  | _ =>
      exact Or.inl he

theorem Moves.keeps
    (hl : l.toPublishLists.Parallel)
    (hs : strict)
    (h : Moves Live strict l given called l')
    {e : BRPublishedTx} {c : ℕ}
    (he : e ∈ l.publishedTx)
    (hc : e.callback = some c) :
    e ∈ l'.publishedTx ∨ c ∈ called := by
  induction h with
  | nil l =>
      exact Or.inl he
  | cons hmove _ ih =>
      rcases hmove.keeps hl hs he hc with he₁ | hcalled
      · rcases ih (hmove.balanced hl).1 he₁ with he' | hcalled
        · exact Or.inl he'
        · exact Or.inr (List.mem_append_right _ hcalled)
      · exact Or.inr (List.mem_append_left _ hcalled)

end Books

/-! ## Runs -/

/-- The callbacks that the calls are given. -/
def given (is : List ManagerInput) : List ℕ :=
  is.flatMap (fun i => i.call.given)

namespace BRPeerManager

variable {env : Env} {m₀ m m' : BRPeerManager} {i : ManagerInput} {is : List ManagerInput}
variable {called : List ℕ} {es : List ManagerEvent} {strict : Prop}

/-- Every event changes the lists by moves. -/
theorem Effect.moves
    (h : Effect m i called m') :
    Moves (· ∈ m.connectedPeers) (m.KeepsCallbacks i) m.txLists i.call.given called
      m'.txLists := by
  cases h with
  | handled h =>
      exact h.moves
  | @dialled peers hcall hm' hcalled =>
      subst hm' hcalled
      rw [hcall, (m.dial_frame peers).1]
      exact .nil _
  | @left peer error es hcall hleft hcalled =>
      rw [hcall, hcalled]
      exact (peerDisconnected_ok _ _ m peer error hleft).1
  | rescanned hcall hm' hcalled =>
      subst hm' hcalled
      rw [hcall, (m.beginRescan_frame i.env).1]
      exact .nil _
  | @relayed peer block es hcall hrelay hcalled =>
      have hstrict : m.KeepsCallbacks i = m.RelaysQuietly i.env peer block := by
        rw [KeepsCallbacks, hcall]
      rw [hcall, hcalled, hstrict]
      exact (relayedBlock_tracks hrelay).2.moves

/-- The books of a run: what has been given is waiting or has been called. -/
structure Books (strict : Prop) (is : List ManagerInput) (m : BRPeerManager)
    (es : List ManagerEvent) : Prop where
  parallel : m.toPublishLists.Parallel
  balanced : Balanced strict ⟨{}, {}⟩ (given is) (fired es) m.txLists

theorem Books.step
    (hb : Books strict is m es)
    (hocc : m.Occurs i)
    (hkeeps : strict → m.KeepsCallbacks i)
    {es' : List ManagerEvent}
    (h : m.step i = .ok (m', es')) :
    Books strict (is ++ [i]) m' (es ++ es') := by
  obtain ⟨hpar, hbal⟩ :=
    ((step_effect hb.parallel hocc h).moves.weaken hkeeps).balanced hb.parallel
  refine ⟨hpar, ?_⟩
  have hall := hb.balanced.trans hbal
  rw [fired_append, given, List.flatMap_append, List.flatMap_singleton]
  exact hall

theorem new_lists
    {wallet : BRWallet} {earliestKeyTime : UInt32} {blocks : List ChainBlock}
    (hnew : BRPeerManager.new env wallet earliestKeyTime blocks = .ok m₀) :
    m₀.txLists = ⟨{}, {}⟩ ∧ m₀.connectedPeers = [] := by
  obtain ⟨s, -, hret⟩ := bind_eq_ok.mp hnew
  cases hret
  exact ⟨rfl, rfl⟩

theorem Books.new
    {wallet : BRWallet} {earliestKeyTime : UInt32} {blocks : List ChainBlock}
    (hnew : BRPeerManager.new env wallet earliestKeyTime blocks = .ok m₀) :
    Books strict [] m₀ [] := by
  have hlists := (new_lists hnew).1
  have hpublish : m₀.toPublishLists = {} := congrArg TxLists.toPublishLists hlists
  refine ⟨?_, ?_⟩
  · rw [hpublish]
    exact ⟨rfl, List.nodup_nil⟩
  · rw [hlists]
    exact .of_eq (fun _ => rfl)

/-- The books are kept in every run. -/
theorem Books.run
    {wallet : BRWallet} {earliestKeyTime : UInt32} {blocks : List ChainBlock}
    (hnew : BRPeerManager.new env wallet earliestKeyTime blocks = .ok m₀)
    (hguard : Guarded BRPeerManager.step (fun m i => m.Occurs i ∧ (strict → m.KeepsCallbacks i)) m₀ is)
    (hrun : m₀.runEvents is = .ok (m, es)) :
    Books strict is m es := by
  have hstep : ∀ hist m log i m' o, Books strict hist m log →
      m.Occurs i ∧ (strict → m.KeepsCallbacks i) → m.step i = .ok (m', o) →
      Books strict (hist ++ [i]) m' (log ++ o) := by
    rintro hist m log i m' o hb ⟨hocc, hkeeps⟩ hs
    exact hb.step hocc hkeeps hs
  exact run_history hstep (Books.new hnew) hguard hrun

/-- **Published transactions and their callbacks.** In every run the hashes are
those of the entries, and no callback is called twice.  Where no call publishes
a transaction that is listed already or confirmed, and no block confirms one
whose callback waits, each callback has been called or waits in an entry, and
stays there until the event that calls it. -/
theorem publish_callbacks
    {wallet : BRWallet} {earliestKeyTime : UInt32} {blocks : List ChainBlock}
    (hnew : BRPeerManager.new env wallet earliestKeyTime blocks = .ok m₀)
    (hocc : Guarded BRPeerManager.step BRPeerManager.Occurs m₀ is)
    (hdistinct : (given is).Nodup)
    (hrun : m₀.runEvents is = .ok (m, es)) :
    m.publishedTxHashes = m.publishedTx.map (fun e => e.tx.txHash) ∧
      (∀ c, (fired es).count c ≤ 1) ∧
      (Guarded BRPeerManager.step KeepsCallbacks m₀ is →
        (∀ c ∈ given is, c ∈ fired es ∨ ∃ e ∈ m.publishedTx, e.callback = some c) ∧
          ∀ i m' es', m.Occurs i → m.KeepsCallbacks i → m.step i = .ok (m', es') →
            ∀ e ∈ m.publishedTx, ∀ c, e.callback = some c →
              e ∈ m'.publishedTx ∨ c ∈ fired es') := by
  have hany : Guarded BRPeerManager.step
      (fun m i => m.Occurs i ∧ (False → m.KeepsCallbacks i)) m₀ is :=
    hocc.mono (fun _ _ h => ⟨h, False.elim⟩)
  have hbooks : Books False is m es := .run hnew hany hrun
  refine ⟨hbooks.parallel.hashes, ?_, ?_⟩
  · intro c
    have hle := (hbooks.balanced c).1
    have hone := List.nodup_iff_count_le_one.mp hdistinct c
    have hzero : (waiting ([] : List BRPublishedTx)).count c = 0 := by rfl
    change _ ≤ (waiting ([] : List BRPublishedTx)).count c + _ at hle
    omega
  · intro hkeeps
    have hstrict : Guarded BRPeerManager.step
        (fun m i => m.Occurs i ∧ (True → m.KeepsCallbacks i)) m₀ is :=
      (hocc.and hkeeps).mono (fun _ _ h => ⟨h.1, fun _ => h.2⟩)
    have hexact : Books True is m es := .run hnew hstrict hrun
    refine ⟨?_, ?_⟩
    · intro c hc
      have heq := (hexact.balanced c).2 trivial
      have hpos := List.count_pos_iff.mpr hc
      by_cases hfired : c ∈ fired es
      · exact Or.inl hfired
      · right
        rw [List.count_eq_zero_of_not_mem hfired] at heq
        have hwait : 0 < (waiting m.publishedTx).count c := by
          change (waiting m.publishedTx).count c + 0 = _ at heq
          omega
        obtain ⟨e, he, hec⟩ := List.mem_filterMap.mp (List.count_pos_iff.mp hwait)
        exact ⟨e, he, hec⟩
    · intro i m' es' hocc' hkeeps' hs e he c hc
      exact (step_effect hbooks.parallel hocc' hs).moves.keeps hbooks.parallel hkeeps' he hc

end BRPeerManager

section Counterexample

/-- A signed transaction to be published. -/
def publishedSpend : BRTransaction :=
  sampleTx 3 [⟨99, 0⟩] [1, 0] 40000 txUnconfirmed

/-- The application publishes it. -/
def publishCall (callback : ℕ) : ManagerInput :=
  ⟨quietEnv testCheckpoints, .publishTx publishedSpend (some callback)⟩

theorem publishCall_occurs
    (m : BRPeerManager) (callback : ℕ) :
    m.Occurs (publishCall callback) := by
  intro peer hpeer
  cases hpeer

/-- The conclusion for one call. -/
theorem publish_callbacks_once :
    ∃ m₀ m es, BRPeerManager.new (quietEnv testCheckpoints) (.empty bareKey) 0 [] = .ok m₀ ∧
      m₀.runEvents [publishCall 1] = .ok (m, es) ∧
      (1 ∈ fired es ∨ ∃ e ∈ m.publishedTx, e.callback = some 1) := by
  obtain ⟨m₀, hnew⟩ :
      ∃ m₀, BRPeerManager.new (quietEnv testCheckpoints) (.empty bareKey) 0 [] = .ok m₀ :=
    ⟨_, rfl⟩
  obtain ⟨m, es, hrun⟩ : ∃ m es, m₀.runEvents [publishCall 1] = .ok (m, es) :=
    ⟨_, _, rfl⟩
  have hnone : m₀.publishedTx = [] :=
    congrArg (fun l : TxLists => l.publishedTx) (BRPeerManager.new_lists hnew).1
  have hkeeps : m₀.KeepsCallbacks (publishCall 1) := by
    refine Or.inr (Or.inr (Or.inr ⟨rfl, ?_⟩))
    rw [hnone]
    intro e he
    cases he
  have hdistinct : (given [publishCall 1]).Nodup := List.nodup_singleton 1
  refine ⟨m₀, m, es, hnew, hrun, ?_⟩
  refine ((BRPeerManager.publish_callbacks hnew ?_ hdistinct hrun).2.2 ?_).1 1
    (List.mem_singleton_self 1)
  · exact ⟨publishCall_occurs _ 1, fun _ _ _ => trivial⟩
  · exact ⟨hkeeps, fun _ _ _ => trivial⟩

/-- The second of two calls for one transaction returns, its callback is not
called and no entry has it. -/
theorem not_publish_callbacks :
    ∃ m₀ m es, BRPeerManager.new (quietEnv testCheckpoints) (.empty bareKey) 0 [] = .ok m₀ ∧
      Guarded BRPeerManager.step BRPeerManager.Occurs m₀ [publishCall 1, publishCall 2] ∧
      (given [publishCall 1, publishCall 2]).Nodup ∧
      m₀.runEvents [publishCall 1, publishCall 2] = .ok (m, es) ∧
      2 ∈ given [publishCall 1, publishCall 2] ∧ 2 ∉ fired es ∧
      ∀ e ∈ m.publishedTx, e.callback ≠ some 2 := by
  refine ⟨_, _, _, rfl, ?_, by decide, rfl, by decide, by decide, ?_⟩
  · exact ⟨publishCall_occurs _ 1, fun m _ _ => ⟨publishCall_occurs m 2, fun _ _ _ => trivial⟩⟩
  · intro e he
    rw [List.mem_singleton.mp he]
    decide

end Counterexample

end BreadwalletCore
