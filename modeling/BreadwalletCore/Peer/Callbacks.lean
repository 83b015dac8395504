import Mathlib.Data.List.ReduceOption
import BreadwalletCore.Data.Machine
import BreadwalletCore.Peer.BlockOrder

/-!
# Completion callbacks

`BRPeerSendPing` puts its callback at the end of a queue and a pong takes one
off the front.  The callback of a mempool request waits in `mempoolCallback`
until the answer or a timeout moves it to the queue.  At the end of
`_peerThreadRoutine` the queue is emptied, callback by callback, and then the
callback that still waits is called.

The machine here runs the context of `Peer.Messages` together with the queue.
A callback is a number that stands for the function and its `info`.  A call
that a callback makes is the next input, because each callback is called last
in its function.
-/

namespace BreadwalletCore

open Machine
open Segment (slice)

/-- Where the thread of the peer is. -/
inductive ThreadPhase
  /-- in the loop of `_peerThreadRoutine` -/
  | reading
  /-- in the loop that empties `pongCallback` -/
  | flushing
  /-- in the call of `mempoolCallback` behind that loop -/
  | inMempool
  | done
deriving DecidableEq, Repr

/-- The fields that hold callbacks, and those that decide about them. -/
structure CallbackQueue where
  nonce : UInt64
  ctx : PeerContext := {}
  pongCallback : List (Option ℕ) := []
  phase : ThreadPhase := .reading

/-- What happens to the peer. -/
inductive CallbackInput
  /-- a message that is no pong, a call, or a timeout -/
  | peer (i : PeerInput)
  | sendPing (callback : Option ℕ)
  | pong (msg : List UInt8)
  /-- an error, or the socket is closed -/
  | leaveLoop
  | flushPong
  | flushMempool
  /-- `mempoolCallback` has returned -/
  | finish

/-- The calls of callbacks, and the messages they depend on. -/
inductive CallbackEvent
  | peer (e : PeerEvent)
  | sentPing (callback : Option ℕ)
  /-- a pong that is accepted -/
  | pong
  /-- taken off the queue, and called unless it is `NULL` -/
  | pongCallback (callback : Option ℕ) (success : Bool)
  /-- called with `success = 0` -/
  | mempoolCallback (callback : ℕ)

/-- A handler faults, or the thread is not where this can happen. -/
inductive CallbackFault
  | peer (f : PeerFault)
  | impossible

/-- The callbacks that an event calls. -/
def CallbackEvent.called : CallbackEvent → List ℕ
  | .pongCallback callback _ => callback.toList
  | .mempoolCallback callback => [callback]
  | _ => []

/-- The callbacks of the pings that an event sends. -/
def CallbackEvent.pinged : CallbackEvent → List (Option ℕ)
  | .sentPing callback => [callback]
  | _ => []

/-- The callbacks that an event takes off the queue. -/
def CallbackEvent.popped : CallbackEvent → List (Option ℕ)
  | .pongCallback callback _ => [callback]
  | _ => []

/-- The event of a handler, with the callback it carries. -/
def CallbackEvent.ofPeer : PeerEvent → CallbackEvent
  | .sentPing callback => .sentPing callback
  | .refusedMempool callback => .mempoolCallback callback
  | e => .peer e

/-- The callback that is passed to a call. -/
def PeerCall.passed : PeerCall → List ℕ
  | .sendMempool _ callback => callback.toList
  | _ => []

/-- The callback that is passed with an input. -/
def CallbackInput.passed : CallbackInput → List ℕ
  | .peer i => i.call.passed
  | .sendPing callback => callback.toList
  | _ => []

/-- A call that a callback may make. -/
def PeerCall.isSend : PeerCall → Bool
  | .message .. => false
  | .mempoolTimeout => false
  | _ => true

namespace CallbackQueue

/-- When an input can happen.  `mempoolTime` is `DBL_MAX` unless a callback waits. -/
def allows (s : CallbackQueue) : PeerCall → Bool
  | .message .pong _ => false
  | .message .. => s.phase = .reading
  | .mempoolTimeout => s.phase = .reading ∧ s.ctx.mempoolCallback ≠ none
  | _ => s.phase ≠ .done

/-- `BRPeerSendPing`. -/
def sendPing (s : CallbackQueue) (callback : Option ℕ) : CallbackQueue × List CallbackEvent :=
  ({ s with pongCallback := s.pongCallback ++ [callback] }, [.sentPing callback])

/-- `_BRPeerAcceptPongMessage`; the last result is `r`. -/
def acceptPong (s : CallbackQueue) (msg : List UInt8) :
    CallbackQueue × List CallbackEvent × Bool :=
  if msg.length < 8 then (s, [], false)
  else if LittleEndian.value (slice msg 0 8) ≠ s.nonce.toNat then (s, [], false)
  else
    match s.pongCallback with
    | [] => (s, [], false)
    | callback :: rest =>
        ({ s with pongCallback := rest }, [.pong, .pongCallback callback true], true)

/-- A pong reaches `_BRPeerAcceptMessage`. -/
def receivePong (s : CallbackQueue) (msg : List UInt8) : CallbackQueue × List CallbackEvent :=
  if ¬ s.ctx.isReading then (s, [])
  else if s.ctx.currentBlock.isSome then
    ({ s with ctx := { s.ctx with
        currentBlock := none, currentBlockTxHashes := [], isReading := false } }, [])
  else
    let r := s.acceptPong msg
    ({ r.1 with ctx := { r.1.ctx with isReading := r.2.2 } }, r.2.1)

/-- The end of the loop that empties `pongCallback`. -/
def flushMempool (s : CallbackQueue) : CallbackQueue × List CallbackEvent :=
  match s.ctx.mempoolCallback with
  | some callback => ({ s with phase := .inMempool }, [.mempoolCallback callback])
  | none => ({ s with phase := .done }, [])

/-- One step of the thread, or of a call. -/
def step (s : CallbackQueue) : CallbackInput →
    Except CallbackFault (CallbackQueue × List CallbackEvent)
  | .peer i =>
      if s.allows i.call then do
        let r ← (s.ctx.step i).mapError .peer
        let events := r.2.map .ofPeer
        pure ({ s with
          ctx := r.1, pongCallback := s.pongCallback ++ events.flatMap (·.pinged) }, events)
      else throw .impossible
  | .sendPing callback =>
      if s.phase ≠ .done then pure (s.sendPing callback) else throw .impossible
  | .pong msg => if s.phase = .reading then pure (s.receivePong msg) else throw .impossible
  | .leaveLoop =>
      if s.phase = .reading then pure ({ s with phase := .flushing }, []) else throw .impossible
  | .flushPong =>
      if s.phase = .flushing then
        match s.pongCallback with
        | [] => throw .impossible
        | callback :: rest =>
            pure ({ s with pongCallback := rest }, [.pongCallback callback false])
      else throw .impossible
  | .flushMempool =>
      if s.phase = .flushing ∧ s.pongCallback = [] then pure s.flushMempool
      else throw .impossible
  | .finish =>
      if s.phase = .inMempool then
        pure ({ s with phase := .done, ctx := { s.ctx with mempoolCallback := none } }, [])
      else throw .impossible

end CallbackQueue

/-! ## What a handler does with the waiting callback -/

/-- Events that have nothing to do with callbacks. -/
def PeerQuiet (es : List PeerEvent) : Prop :=
  ∀ e ∈ es, CallbackEvent.ofPeer e = .peer e

/-- The effect of a call on the callback that waits. -/
inductive MempoolEffect (call : PeerCall) :
    Option ℕ → Option ℕ → List PeerEvent → Prop where
  | keeps {waits : Option ℕ} {es : List PeerEvent} :
      call.passed = [] → PeerQuiet es → MempoolEffect call waits waits es
  | asks {waits : Option ℕ} {es : List PeerEvent} :
      call.isSend = true → call.passed = waits.toList → PeerQuiet es →
      MempoolEffect call none waits es
  | refuses {waits : Option ℕ} (callback : ℕ) :
      call.isSend = true → call.passed = [callback] →
      MempoolEffect call waits waits [.refusedMempool callback]
  | pings {waits : Option ℕ} {es : List PeerEvent} :
      call.isSend = false → call.passed = [] → PeerQuiet es →
      MempoolEffect call waits none (es ++ [.sentPing waits])

theorem peerQuiet_nil : PeerQuiet [] := by
  simp [PeerQuiet]

theorem PeerQuiet.append
    {es es' : List PeerEvent}
    (h : PeerQuiet es)
    (h' : PeerQuiet es') :
    PeerQuiet (es ++ es') := by
  intro e hmem
  rcases List.mem_append.mp hmem with hmem | hmem
  · exact h e hmem
  · exact h' e hmem

/-- A call that leaves the waiting callback alone. -/
def PeerContext.Keeps (ctx : PeerContext) (called : PeerContext × List PeerEvent) : Prop :=
  called.1.mempoolCallback = ctx.mempoolCallback ∧ PeerQuiet called.2

namespace PeerContext

variable {ctx ctx' : PeerContext} {i : PeerInput} {es : List PeerEvent} {r : Bool}
variable {env : PeerEnv} {msg : List UInt8}

theorem sendGetdata_keeps
    (ctx : PeerContext) (txHashes blockHashes : List UInt256) :
    ctx.Keeps (ctx.sendGetdata txHashes blockHashes) := by
  rw [sendGetdata]
  split
  · exact ⟨rfl, peerQuiet_nil⟩
  · split
    · exact ⟨rfl, by simp [PeerQuiet, CallbackEvent.ofPeer]⟩
    · exact ⟨rfl, peerQuiet_nil⟩

theorem rerequestBlocks_keeps
    (ctx : PeerContext) (fromBlock : UInt256) :
    ctx.Keeps (ctx.rerequestBlocks fromBlock) := by
  rw [rerequestBlocks]
  split
  · obtain ⟨hsame, hquiet⟩ := sendGetdata_keeps
      { ctx with
        knownBlockHashes := fromBlock ::
          (ctx.knownBlockHashes.reverse.takeWhile (· ≠ fromBlock)).reverse }
      [] (fromBlock :: (ctx.knownBlockHashes.reverse.takeWhile (· ≠ fromBlock)).reverse)
    exact ⟨hsame, hquiet⟩
  · exact ⟨rfl, peerQuiet_nil⟩

theorem sendInv_keeps
    (ctx : PeerContext) (txHashes : List UInt256) :
    ctx.Keeps (ctx.sendInv txHashes) := by
  refine ⟨rfl, ?_⟩
  simp only [sendInv]
  split <;> simp [PeerQuiet, CallbackEvent.ofPeer]

theorem Keeps.effect
    {called : PeerContext × List PeerEvent} {call : PeerCall}
    (hkeeps : ctx.Keeps called)
    (hpassed : call.passed = []) :
    MempoolEffect call ctx.mempoolCallback called.1.mempoolCallback called.2 := by
  rw [hkeeps.1]
  exact .keeps hpassed hkeeps.2

theorem nextGetblocks_peerQuiet
    (blocks : List UInt256) :
    PeerQuiet (nextGetblocks blocks) := by
  rw [nextGetblocks]
  split <;> simp [PeerQuiet, CallbackEvent.ofPeer]

theorem hasTx_peerQuiet
    (txHashes : List UInt256) :
    PeerQuiet (txHashes.map .hasTx) := by
  simp [PeerQuiet, CallbackEvent.ofPeer]

/-- The answer to a mempool request sends the ping behind everything else. -/
theorem takeInv_mempool
    (ctx : PeerContext) (transactions blocks : List UInt256) (msg : List UInt8) :
    MempoolEffect (.message .inv msg) ctx.mempoolCallback
      (ctx.takeInv transactions blocks).1.mempoolCallback
      (ctx.takeInv transactions blocks).2 := by
  rw [takeInv]
  generalize (if ctx.needsFilterUpdate then [] else ctx.invBlocks blocks) = asked
  generalize htxs : transactions.filter (· ∉ ctx.knownTxHashes) = txHashes
  generalize hctx : ((ctx.rememberBlocks (ctx.invBlocks blocks)).addKnownTxHashes txHashes) = ctx₁
  have hstart : ctx₁.mempoolCallback = ctx.mempoolCallback := by
    rw [← hctx]
    rfl
  obtain ⟨hsame, hquiet⟩ := ctx₁.sendGetdata_keeps txHashes asked
  rw [hstart] at hsame
  have hfront := ((hasTx_peerQuiet (transactions.filter (· ∈ ctx.knownTxHashes))).append
    hquiet).append (nextGetblocks_peerQuiet asked)
  rw [mempoolAnswered]
  split
  · rw [pingMempool, hsame]
    exact .pings rfl rfl hfront
  · rw [List.append_nil, hsame]
    exact .keeps rfl hfront

theorem acceptInv_mempool
    (ctx : PeerContext) (msg : List UInt8) :
    MempoolEffect (.message .inv msg) ctx.mempoolCallback
      (ctx.acceptInv msg).1.mempoolCallback (ctx.acceptInv msg).2.1 := by
  rcases ctx.acceptInv_cases msg with ⟨r, heq⟩ | ⟨transactions, blocks, heq⟩
  · rw [heq]
    exact .keeps rfl peerQuiet_nil
  · rw [heq]
    exact ctx.takeInv_mempool transactions blocks msg

theorem deliverTx_keeps
    (ctx : PeerContext) (tx : RawTransaction) :
    ctx.Keeps (ctx.deliverTx tx) := by
  rw [deliverTx]
  split
  · exact ⟨rfl, by simp [PeerQuiet, CallbackEvent.ofPeer]⟩
  · dsimp only
    split
    · exact ⟨rfl, by simp [PeerQuiet, CallbackEvent.ofPeer]⟩
    · exact ⟨rfl, by simp [PeerQuiet, CallbackEvent.ofPeer]⟩

theorem takeBlock_keeps
    (ctx : PeerContext) (block : PeerBlock) (hashes : List UInt256) :
    ctx.Keeps (ctx.takeBlock block hashes) := by
  rw [takeBlock]
  split
  · exact ⟨rfl, by simp [PeerQuiet, CallbackEvent.ofPeer]⟩
  · exact ⟨rfl, peerQuiet_nil⟩

/-- Only an inventory moves the waiting callback. -/
theorem acceptMessage_mempool
    {type : MessageType}
    (h : ctx.acceptMessage env type msg = .ok (ctx', es, r)) :
    MempoolEffect (.message type msg) ctx.mempoolCallback ctx'.mempoolCallback es := by
  unfold acceptMessage at h
  split at h
  · cases h
    exact .keeps rfl peerQuiet_nil
  · have hkeeps : ∀ d : PeerContext, d.mempoolCallback = ctx.mempoolCallback → ∀ b,
        (pure (d, [], b) : Except PeerFault (PeerContext × List PeerEvent × Bool)) =
          .ok (ctx', es, r) →
        MempoolEffect (.message type msg) ctx.mempoolCallback ctx'.mempoolCallback es := by
      intro d hd b hret
      cases hret
      rw [hd]
      exact .keeps rfl peerQuiet_nil
    cases type with
    | inv =>
        have hinv := ctx.acceptInv_mempool msg
        have heq : ctx.acceptInv msg = (ctx', es, r) := Except.ok.inj h
        rwa [heq] at hinv
    | tx =>
        obtain ⟨parsed, -, h⟩ := bind_eq_ok.mp h
        cases parsed with
        | none =>
            exact hkeeps ctx rfl _ h
        | some tx =>
            dsimp only at h
            split at h
            · exact hkeeps ctx rfl _ h
            · cases h
              exact (ctx.deliverTx_keeps tx.1).effect rfl
    | merkleblock =>
        change ctx.acceptMerkleblock env msg = _ at h
        rw [acceptMerkleblock] at h
        split at h
        · exact hkeeps ctx rfl _ h
        · rename_i block hparse
          obtain ⟨valid, -, h⟩ := bind_eq_ok.mp h
          split at h
          · exact hkeeps ctx rfl _ h
          · split at h
            · exact hkeeps ctx rfl _ h
            · obtain ⟨hashes, -, hret⟩ := bind_eq_ok.mp h
              cases hret
              exact (ctx.takeBlock_keeps block hashes).effect rfl
    | version =>
        dsimp only at h
        split at h
        · exact hkeeps ctx rfl _ h
        · cases h
          exact .keeps rfl peerQuiet_nil
    | _ =>
        exact hkeeps ctx rfl _ h

theorem sendMempool_mempool
    (ctx : PeerContext) (known : List UInt256) (callback : Option ℕ) :
    MempoolEffect (.sendMempool known callback) ctx.mempoolCallback
      (ctx.sendMempool known callback).1.mempoolCallback
      (ctx.sendMempool known callback).2 := by
  rw [sendMempool]
  split
  · rename_i hfree
    rw [hfree.2]
    exact .asks rfl rfl (by simp [PeerQuiet, CallbackEvent.ofPeer])
  · cases callback with
    | none =>
        exact .keeps rfl peerQuiet_nil
    | some callback =>
        exact .refuses callback rfl rfl

/-- What a step does with the waiting callback. -/
theorem step_mempool
    (h : ctx.step i = .ok (ctx', es)) :
    MempoolEffect i.call ctx.mempoolCallback ctx'.mempoolCallback es := by
  have hret : ∀ {called : PeerContext × List PeerEvent},
      (pure called : Except PeerFault (PeerContext × List PeerEvent)) = .ok (ctx', es) →
      MempoolEffect i.call ctx.mempoolCallback called.1.mempoolCallback called.2 →
      MempoolEffect i.call ctx.mempoolCallback ctx'.mempoolCallback es := by
    intro called hcalled heffect
    have heq : called = (ctx', es) := Except.ok.inj hcalled
    rwa [heq] at heffect
  rcases hcall : i.call with
    ⟨type, msg⟩ | ⟨txHashes⟩ | ⟨known, callback⟩ | _ | ⟨txHashes, blocks⟩ | ⟨fromBlock⟩ |
      ⟨height⟩ | ⟨b⟩ | _ <;> rw [step, hcall] at h <;> rw [hcall] at hret
  · dsimp only at h
    split at h
    · obtain ⟨⟨c, es', r⟩, haccept, h⟩ := bind_eq_ok.mp h
      have heffect := acceptMessage_mempool haccept
      exact hret h heffect
    · exact hret h (.keeps rfl peerQuiet_nil)
  · exact hret h ((ctx.sendInv_keeps txHashes).effect rfl)
  · exact hret h (ctx.sendMempool_mempool known callback)
  · exact hret h (.keeps rfl (by simp [sendFilterload, PeerQuiet, CallbackEvent.ofPeer]))
  · exact hret h ((ctx.sendGetdata_keeps txHashes blocks).effect rfl)
  · exact hret h ((ctx.rerequestBlocks_keeps fromBlock).effect rfl)
  · exact hret h (.keeps rfl peerQuiet_nil)
  · exact hret h (.keeps rfl peerQuiet_nil)
  · exact hret h (.pings rfl rfl peerQuiet_nil)

end PeerContext

/-! ## What a step does with the callbacks -/

/-- Events that neither send a ping nor call anything. -/
def CallbackQuiet (es : List CallbackEvent) : Prop :=
  ∀ e ∈ es, e.called = [] ∧ e.pinged = [] ∧ e.popped = []

theorem PeerQuiet.callbackQuiet
    {es : List PeerEvent}
    (h : PeerQuiet es) :
    CallbackQuiet (es.map .ofPeer) := by
  intro e hmem
  obtain ⟨e', hmem', rfl⟩ := List.mem_map.mp hmem
  rw [h e' hmem']
  exact ⟨rfl, rfl, rfl⟩

/-- The callbacks called in a log, in order. -/
def callsOf (log : List CallbackEvent) : List ℕ :=
  log.flatMap (·.called)

/-- The callbacks of the pings sent in a log, in order. -/
def pingsOf (log : List CallbackEvent) : List (Option ℕ) :=
  log.flatMap (·.pinged)

/-- The callbacks taken off the queue in a log, in order. -/
def popsOf (log : List CallbackEvent) : List (Option ℕ) :=
  log.flatMap (·.popped)

@[simp] theorem callsOf_append
    (log es : List CallbackEvent) :
    callsOf (log ++ es) = callsOf log ++ callsOf es :=
  List.flatMap_append

@[simp] theorem pingsOf_append
    (log es : List CallbackEvent) :
    pingsOf (log ++ es) = pingsOf log ++ pingsOf es :=
  List.flatMap_append

@[simp] theorem popsOf_append
    (log es : List CallbackEvent) :
    popsOf (log ++ es) = popsOf log ++ popsOf es :=
  List.flatMap_append

namespace CallbackQuiet

variable {es : List CallbackEvent}

theorem callsOf
    (h : CallbackQuiet es) :
    callsOf es = [] :=
  List.flatMap_eq_nil_iff.mpr (fun e hmem => (h e hmem).1)

theorem pingsOf
    (h : CallbackQuiet es) :
    pingsOf es = [] :=
  List.flatMap_eq_nil_iff.mpr (fun e hmem => (h e hmem).2.1)

theorem popsOf
    (h : CallbackQuiet es) :
    popsOf es = [] :=
  List.flatMap_eq_nil_iff.mpr (fun e hmem => (h e hmem).2.2)

end CallbackQuiet

namespace CallbackQueue

variable {s s' : CallbackQueue} {i : CallbackInput} {es log : List CallbackEvent}

/-- The queue has been emptied for the last time. -/
def IsClosed (s : CallbackQueue) : Prop :=
  s.phase = .inMempool ∨ s.phase = .done

instance : Decidable s.IsClosed :=
  inferInstanceAs (Decidable (_ ∨ _))

/-- The callback that waits and has not been called yet. -/
def waiting (s : CallbackQueue) : List ℕ :=
  if s.IsClosed then [] else s.ctx.mempoolCallback.toList

/-- The call of `mempoolCallback` leaves it in place. -/
def Sound (s : CallbackQueue) : Prop :=
  s.phase = .inMempool → s.ctx.mempoolCallback ≠ none

/-- What a step does with the callbacks: those passed and the one that waits
are afterwards sent with a ping, called, or wait. -/
inductive Effect (s : CallbackQueue) (passed : List ℕ) (s' : CallbackQueue) :
    List CallbackEvent → Prop where
  | quiet {es : List CallbackEvent} :
      s'.pongCallback = s.pongCallback → passed ++ s.waiting = s'.waiting →
      CallbackQuiet es → Effect s passed s' es
  | pinged {front : List CallbackEvent} (callback : Option ℕ) :
      s'.pongCallback = s.pongCallback ++ [callback] →
      passed ++ s.waiting = callback.toList ++ s'.waiting →
      CallbackQuiet front → Effect s passed s' (front ++ [.sentPing callback])
  | ponged (callback : Option ℕ) :
      s.pongCallback = callback :: s'.pongCallback → passed = [] → s.waiting = s'.waiting →
      Effect s passed s' [.pong, .pongCallback callback true]
  | flushed (callback : Option ℕ) :
      s.pongCallback = callback :: s'.pongCallback → passed = [] → s.waiting = s'.waiting →
      Effect s passed s' [.pongCallback callback false]
  | called (callback : ℕ) :
      s'.pongCallback = s.pongCallback → passed ++ s.waiting = callback :: s'.waiting →
      Effect s passed s' [.mempoolCallback callback]

theorem allows_not_done
    {call : PeerCall}
    (h : s.allows call = true) :
    s.phase ≠ .done := by
  intro hdone
  cases call with
  | message type msg =>
      cases type <;> simp [allows, hdone] at h
  | _ =>
      simp [allows, hdone] at h

/-- Messages and timeouts are for the loop. -/
theorem allows_reading
    {call : PeerCall}
    (h : s.allows call = true)
    (hsend : call.isSend = false) :
    s.phase = .reading := by
  cases call with
  | message type msg =>
      cases type <;> simp_all [allows]
  | mempoolTimeout =>
      simp only [allows, decide_eq_true_eq] at h
      exact h.1
  | _ =>
      cases hsend

theorem not_closed_of_reading
    (h : s.phase = .reading) :
    ¬ s.IsClosed := by
  simp [IsClosed, h]

theorem waiting_of_not_closed
    (h : ¬ s.IsClosed) :
    s.waiting = s.ctx.mempoolCallback.toList :=
  if_neg h

theorem waiting_congr
    (hphase : s'.phase = s.phase)
    (hwaits : s'.ctx.mempoolCallback = s.ctx.mempoolCallback) :
    s'.waiting = s.waiting := by
  have hclosed : s'.IsClosed ↔ s.IsClosed := by
    rw [IsClosed, IsClosed, hphase]
  by_cases h : s.IsClosed
  · rw [waiting, waiting, if_pos h, if_pos (hclosed.mpr h)]
  · rw [waiting, waiting, if_neg h, if_neg (fun h' => h (hclosed.mp h')), hwaits]

/-- The effect of a pong. -/
theorem receivePong_effect
    (s : CallbackQueue) (msg : List UInt8) :
    Effect s [] (s.receivePong msg).1 (s.receivePong msg).2 ∧
      (s.receivePong msg).1.phase = s.phase ∧
      (s.receivePong msg).1.ctx.mempoolCallback = s.ctx.mempoolCallback := by
  have hnone : CallbackQuiet [] := by
    simp [CallbackQuiet]
  rw [receivePong]
  split
  · exact ⟨.quiet rfl rfl hnone, rfl, rfl⟩
  · split
    · exact ⟨.quiet rfl (waiting_congr rfl rfl).symm hnone, rfl, rfl⟩
    · rw [acceptPong]
      split
      · exact ⟨.quiet rfl (waiting_congr rfl rfl).symm hnone, rfl, rfl⟩
      · split
        · exact ⟨.quiet rfl (waiting_congr rfl rfl).symm hnone, rfl, rfl⟩
        · split
          · exact ⟨.quiet rfl (waiting_congr rfl rfl).symm hnone, rfl, rfl⟩
          · rename_i callback rest hqueue
            exact ⟨.ponged callback hqueue rfl (waiting_congr rfl rfl).symm, rfl, rfl⟩

/-- The effect of a handler or a call. -/
theorem peer_effect
    {call : PeerCall} {ctx : PeerContext} {es : List PeerEvent}
    (hsound : s.Sound)
    (hallows : s.allows call = true)
    (h : MempoolEffect call s.ctx.mempoolCallback ctx.mempoolCallback es)
    (hctx : s'.ctx = ctx)
    (hphase : s'.phase = s.phase)
    (hqueue : s'.pongCallback = s.pongCallback ++ pingsOf (es.map .ofPeer)) :
    Effect s call.passed s' (es.map .ofPeer) ∧ s'.Sound := by
  subst hctx
  generalize hbefore : s.ctx.mempoolCallback = waits at h
  generalize hbehind : s'.ctx.mempoolCallback = waits' at h
  cases h with
  | keeps hpassed hquiet =>
      have hsame := hbehind.trans hbefore.symm
      rw [hquiet.callbackQuiet.pingsOf, List.append_nil] at hqueue
      refine ⟨.quiet hqueue ?_ hquiet.callbackQuiet, ?_⟩
      · rw [hpassed, List.nil_append, waiting_congr hphase hsame]
      · intro hmempool
        rw [hsame]
        exact hsound (hphase ▸ hmempool)
  | asks hsend hpassed hquiet =>
      have hopen : ¬ s.IsClosed := by
        rintro (hmempool | hdone)
        · exact hsound hmempool hbefore
        · exact allows_not_done hallows hdone
      have hopen' : ¬ s'.IsClosed := by
        rwa [IsClosed, hphase]
      rw [hquiet.callbackQuiet.pingsOf, List.append_nil] at hqueue
      refine ⟨.quiet hqueue ?_ hquiet.callbackQuiet, fun h => absurd (.inl h) hopen'⟩
      rw [waiting_of_not_closed hopen, waiting_of_not_closed hopen', hbefore, hbehind, hpassed]
      exact List.append_nil _
  | refuses callback hsend hpassed =>
      have hsame := hbehind.trans hbefore.symm
      have hnone : pingsOf ([PeerEvent.refusedMempool callback].map .ofPeer) = [] := rfl
      rw [hnone, List.append_nil] at hqueue
      refine ⟨.called callback hqueue ?_, ?_⟩
      · rw [hpassed, waiting_congr hphase hsame]
        rfl
      · intro hmempool
        rw [hsame]
        exact hsound (hphase ▸ hmempool)
  | @pings _ front hsend hpassed hquiet =>
      have hopen := not_closed_of_reading (allows_reading hallows hsend)
      have hopen' : ¬ s'.IsClosed := by
        rwa [IsClosed, hphase]
      rw [List.map_append] at hqueue ⊢
      rw [pingsOf_append, hquiet.callbackQuiet.pingsOf] at hqueue
      refine ⟨.pinged waits hqueue ?_ hquiet.callbackQuiet, fun h => absurd (.inl h) hopen'⟩
      rw [waiting_of_not_closed hopen, waiting_of_not_closed hopen', hbefore, hbehind, hpassed]
      exact (List.append_nil _).symm

/-- Everything a step does with the callbacks. -/
theorem step_effect
    (hsound : s.Sound)
    (h : s.step i = .ok (s', es)) :
    Effect s i.passed s' es ∧ s'.Sound := by
  cases i with
  | peer i =>
      rw [step] at h
      split at h
      · rename_i hallows
        obtain ⟨⟨ctx, es'⟩, hstep, hret⟩ := bind_eq_ok.mp h
        have heffect := PeerContext.step_mempool (mapError_eq_ok hstep)
        cases hret
        exact peer_effect hsound hallows heffect rfl rfl rfl
      · cases h
  | sendPing callback =>
      rw [step] at h
      split at h
      · cases h
        refine ⟨.pinged callback rfl ?_ (show CallbackQuiet [] by simp [CallbackQuiet]), hsound⟩
        rfl
      · cases h
  | pong msg =>
      rw [step] at h
      split at h
      · obtain ⟨heffect, hphase, hwaits⟩ := s.receivePong_effect msg
        have heq : s.receivePong msg = (s', es) := Except.ok.inj h
        rw [heq] at heffect hphase hwaits
        refine ⟨heffect, fun hmempool => ?_⟩
        rw [hwaits]
        exact hsound (hphase ▸ hmempool)
      · cases h
  | leaveLoop =>
      rw [step] at h
      split at h
      · rename_i hreading
        cases h
        refine ⟨.quiet rfl ?_ (by simp [CallbackQuiet]), fun h => by cases h⟩
        simp [waiting, IsClosed, hreading, CallbackInput.passed]
      · cases h
  | flushPong =>
      rw [step] at h
      split at h
      · rename_i hflushing
        split at h
        · cases h
        · rename_i callback rest hqueue
          cases h
          exact ⟨.flushed callback hqueue rfl rfl, hsound⟩
      · cases h
  | flushMempool =>
      rw [step] at h
      split at h
      · rename_i hflush
        have hwaiting : s.waiting = s.ctx.mempoolCallback.toList :=
          waiting_of_not_closed (by simp [IsClosed, hflush.1])
        have heq : s.flushMempool = (s', es) := Except.ok.inj h
        rw [flushMempool] at heq
        split at heq
        · rename_i callback hwaits
          cases heq
          refine ⟨.called callback rfl ?_, fun _ => by simp [hwaits]⟩
          rw [hwaiting, hwaits]
          rfl
        · rename_i hwaits
          cases heq
          refine ⟨.quiet rfl ?_ (by simp [CallbackQuiet]), fun h => by cases h⟩
          rw [hwaiting, hwaits]
          rfl
      · cases h
  | finish =>
      rw [step] at h
      split at h
      · rename_i hmempool
        cases h
        refine ⟨.quiet rfl ?_ (by simp [CallbackQuiet]), fun h => by cases h⟩
        simp [waiting, IsClosed, hmempool, CallbackInput.passed]
      · cases h

/-! ## Every callback once -/

/-- A callback that is taken off the queue is that of the next ping, and called
with success only behind a pong that comes after this ping. -/
def InTurn (front : List CallbackEvent) : CallbackEvent → Prop
  | .pongCallback callback false => popsOf front ++ [callback] <+: pingsOf front
  | .pongCallback callback true =>
      ∃ front', front = front' ++ [.pong] ∧ popsOf front' ++ [callback] <+: pingsOf front'
  | _ => True

/-- What is true of the log of every run. -/
structure Follows (s : CallbackQueue) (passed : List ℕ) (log : List CallbackEvent) : Prop where
  queue : pingsOf log = popsOf log ++ s.pongCallback
  account : passed.Perm (callsOf log ++ s.pongCallback.reduceOption ++ s.waiting)
  inTurn : EachEvent InTurn log
  sound : s.Sound

theorem inTurn_of_popped
    {front : List CallbackEvent} {e : CallbackEvent}
    (h : e.popped = []) :
    InTurn front e := by
  cases e with
  | pongCallback callback success =>
      cases h
  | _ =>
      trivial

theorem eachEvent_inTurn_of_quiet
    (h : CallbackQuiet es) :
    EachEvent (fun front e => InTurn (log ++ front) e) es := by
  rintro front e behind rfl
  exact inTurn_of_popped (h e (by simp)).2.2

/-- The callbacks that are passed are accounted for if those of the step are. -/
theorem account_step
    {passed passed' queue queue' waiting waiting' : List ℕ}
    (haccount : passed.Perm (callsOf log ++ queue ++ waiting))
    (hstep : ∀ callback, passed'.count callback + waiting.count callback +
      queue.count callback = (callsOf es).count callback + waiting'.count callback +
        queue'.count callback) :
    (passed ++ passed').Perm (callsOf (log ++ es) ++ queue' ++ waiting') := by
  rw [List.perm_iff_count] at haccount ⊢
  intro callback
  have h := haccount callback
  have h' := hstep callback
  simp only [callsOf_append, List.count_append] at h h' ⊢
  omega

theorem reduceOption_singleton
    (callback : Option ℕ) :
    [callback].reduceOption = callback.toList := by
  cases callback <;> rfl

theorem reduceOption_cons
    (callback : Option ℕ) (rest : List (Option ℕ)) :
    (callback :: rest).reduceOption = callback.toList ++ rest.reduceOption := by
  cases callback <;> rfl

/-- Every step keeps `Follows`. -/
theorem Follows.step
    {passed : List ℕ}
    (hfollows : s.Follows passed log)
    (h : s.step i = .ok (s', es)) :
    s'.Follows (passed ++ i.passed) (log ++ es) := by
  obtain ⟨heffect, hsound⟩ := step_effect hfollows.sound h
  have hturn := hfollows.queue
  have hcount {xs ys xs' ys' : List ℕ} (heq : xs ++ ys = xs' ++ ys') (callback : ℕ) :
      xs.count callback + ys.count callback = xs'.count callback + ys'.count callback := by
    rw [← List.count_append, heq, List.count_append]
  cases heffect with
  | quiet hqueue hwaiting hquiet =>
      refine ⟨?_, account_step hfollows.account (fun callback => ?_),
        hfollows.inTurn.append (eachEvent_inTurn_of_quiet hquiet), hsound⟩
      · rw [pingsOf_append, popsOf_append, hquiet.pingsOf, hquiet.popsOf, hqueue,
          List.append_nil, List.append_nil]
        exact hturn
      · rw [hquiet.callsOf, hqueue, ← hwaiting, List.count_append]
        simp
  | @pinged front callback hqueue hwaiting hquiet =>
      refine ⟨?_, account_step hfollows.account (fun c => ?_), ?_, hsound⟩
      · simp only [pingsOf_append, popsOf_append, hquiet.pingsOf, hquiet.popsOf, hqueue, hturn]
        simp [pingsOf, popsOf, CallbackEvent.pinged, CallbackEvent.popped]
      · have := hcount hwaiting c
        rw [hqueue, List.reduceOption_append, reduceOption_singleton, callsOf_append,
          hquiet.callsOf]
        simp only [callsOf, CallbackEvent.called, List.flatMap_cons, List.flatMap_nil,
          List.append_nil, List.count_nil, List.count_append]
        omega
      · rw [← List.append_assoc]
        exact (hfollows.inTurn.append (eachEvent_inTurn_of_quiet hquiet)).concat trivial
  | ponged callback hqueue hpassed hwaiting =>
      have hnext : popsOf log ++ [callback] <+: pingsOf log := by
        rw [hturn, hqueue]
        exact ⟨s'.pongCallback, List.append_assoc _ _ _⟩
      refine ⟨?_, account_step hfollows.account (fun c => ?_), ?_, hsound⟩
      · rw [pingsOf_append, popsOf_append, hturn, hqueue]
        simp [pingsOf, popsOf, CallbackEvent.pinged, CallbackEvent.popped]
      · rw [hpassed, hwaiting, hqueue, reduceOption_cons, List.count_append]
        simp only [callsOf, CallbackEvent.called, List.flatMap_cons, List.flatMap_nil,
          List.append_nil, List.nil_append, List.count_nil]
        omega
      · rw [List.append_cons]
        have hpong : EachEvent InTurn (log ++ [.pong]) :=
          hfollows.inTurn.concat (inTurn_of_popped rfl)
        have hpop : InTurn (log ++ [.pong]) (.pongCallback callback true) :=
          ⟨log, rfl, hnext⟩
        exact hpong.concat hpop
  | flushed callback hqueue hpassed hwaiting =>
      have hnext : popsOf log ++ [callback] <+: pingsOf log := by
        rw [hturn, hqueue]
        exact ⟨s'.pongCallback, List.append_assoc _ _ _⟩
      refine ⟨?_, account_step hfollows.account (fun c => ?_), hfollows.inTurn.concat hnext, hsound⟩
      · rw [pingsOf_append, popsOf_append, hturn, hqueue]
        simp [pingsOf, popsOf, CallbackEvent.pinged, CallbackEvent.popped]
      · rw [hpassed, hwaiting, hqueue, reduceOption_cons, List.count_append]
        simp only [callsOf, CallbackEvent.called, List.flatMap_cons, List.flatMap_nil,
          List.append_nil, List.count_nil]
        omega
  | called callback hqueue hwaiting =>
      refine ⟨?_, account_step hfollows.account (fun c => ?_), hfollows.inTurn.concat trivial,
        hsound⟩
      · rw [pingsOf_append, popsOf_append, hturn, hqueue]
        simp [pingsOf, popsOf, CallbackEvent.pinged, CallbackEvent.popped]
      · have := @hcount _ _ [callback] s'.waiting hwaiting c
        rw [hqueue]
        simp only [callsOf, CallbackEvent.called, List.flatMap_cons, List.flatMap_nil,
          List.append_nil]
        omega

/-- The callbacks are served when the thread is done: those that were passed
have been called once each, and those of pings in turn. -/
structure Served (passed : List ℕ) (log : List CallbackEvent) : Prop where
  once : (callsOf log).Perm passed
  inTurn : EachEvent InTurn log

/-- No ping with a callback is sent by the last call of a mempool callback. -/
def PingInTime (s : CallbackQueue) (i : CallbackInput) : Prop :=
  ¬ (s.phase = .inMempool ∧ ∃ callback, i = .sendPing (some callback))

theorem follows_of_run
    {nonce : UInt64} {is : List CallbackInput}
    (hrun : run CallbackQueue.step { nonce := nonce } is = .ok (s, log)) :
    s.Follows (is.flatMap (·.passed)) log := by
  have hinit : Follows { nonce := nonce } [] [] :=
    ⟨rfl, List.Perm.refl _, eachEvent_nil, fun h => by cases h⟩
  have hguard : Guarded CallbackQueue.step (fun _ _ => True) { nonce := nonce } is :=
    guarded_of_forall (fun _ _ => trivial) is _
  have hinv : s.Follows (([] ++ is).flatMap CallbackInput.passed) ([] ++ log) := run_history
    (I := fun hist (s : CallbackQueue) log => s.Follows (hist.flatMap (·.passed)) log)
    (fun hist s log i s' o hfollows _ hstep => by
      have h := hfollows.step hstep
      simpa using h)
    hinit hguard hrun
  simpa using hinv

/-- At the end a callback is left in the queue or has been called. -/
theorem served_iff_queue
    {passed : List ℕ}
    (hfollows : s.Follows passed log)
    (hdone : s.phase = .done) :
    Served passed log ↔ s.pongCallback.reduceOption = [] := by
  have haccount := hfollows.account
  have hwaiting : s.waiting = [] :=
    if_pos (.inr hdone)
  rw [hwaiting, List.append_nil] at haccount
  constructor
  · intro hserved
    have hlen := (hserved.once.trans haccount).length_eq
    rw [List.length_append] at hlen
    exact List.eq_nil_of_length_eq_zero (by omega)
  · intro hempty
    rw [hempty, List.append_nil] at haccount
    exact ⟨haccount.symm, hfollows.inTurn⟩

/-- A handler or a call stays in its phase, and only the loop sends pings. -/
theorem step_peer
    {i : PeerInput}
    (h : s.step (.peer i) = .ok (s', es)) :
    s'.phase = s.phase ∧ (s.IsClosed → s'.pongCallback = s.pongCallback) := by
  rw [step] at h
  split at h
  · rename_i hallows
    obtain ⟨⟨ctx, es'⟩, hstep, hret⟩ := bind_eq_ok.mp h
    have heffect := PeerContext.step_mempool (mapError_eq_ok hstep)
    cases hret
    refine ⟨rfl, fun hclosed => ?_⟩
    have hnone : pingsOf (es'.map .ofPeer) = [] := by
      generalize hbefore : s.ctx.mempoolCallback = waits at heffect
      generalize hbehind : ctx.mempoolCallback = waits' at heffect
      cases heffect with
      | keeps _ hquiet =>
          exact hquiet.callbackQuiet.pingsOf
      | asks _ _ hquiet =>
          exact hquiet.callbackQuiet.pingsOf
      | refuses callback _ _ =>
          rfl
      | pings hsend _ _ =>
          exact absurd hclosed (not_closed_of_reading (allows_reading hallows hsend))
    exact (congrArg _ hnone).trans (List.append_nil _)
  · cases h

/-- Nothing is taken off a queue that is closed. -/
theorem closed_step
    (hclosed : s.IsClosed)
    (h : s.step i = .ok (s', es)) :
    s'.IsClosed ∧ (s'.pongCallback = s.pongCallback ∨
      s.phase = .inMempool ∧ ∃ callback, i = .sendPing callback ∧
        s'.pongCallback = s.pongCallback ++ [callback]) := by
  cases i with
  | peer i =>
      obtain ⟨hphase, hqueue⟩ := step_peer h
      refine ⟨?_, .inl (hqueue hclosed)⟩
      rwa [IsClosed, hphase]
  | sendPing callback =>
      rw [step] at h
      split at h
      · rename_i hdone
        cases h
        exact ⟨hclosed, .inr ⟨hclosed.resolve_right hdone, callback, rfl, rfl⟩⟩
      · cases h
  | finish =>
      rw [step] at h
      split at h
      · cases h
        exact ⟨.inr rfl, .inl rfl⟩
      · cases h
  | pong msg =>
      rw [step, if_neg (fun h => not_closed_of_reading h hclosed)] at h
      cases h
  | leaveLoop =>
      rw [step, if_neg (fun h => not_closed_of_reading h hclosed)] at h
      cases h
  | flushPong =>
      rcases hclosed with hphase | hphase <;> simp [step, hphase] at h
  | flushMempool =>
      rcases hclosed with hphase | hphase <;> simp [step, hphase] at h

/-- The queue is closed when it is empty. -/
theorem closes_step
    (hopen : ¬ s.IsClosed)
    (hclosed : s'.IsClosed)
    (h : s.step i = .ok (s', es)) :
    s'.pongCallback = [] := by
  cases i with
  | peer i =>
      rw [IsClosed, (step_peer h).1] at hclosed
      exact absurd hclosed hopen
  | sendPing callback =>
      rw [step] at h
      split at h
      · cases h
        exact absurd hclosed hopen
      · cases h
  | pong msg =>
      rw [step] at h
      split at h
      · have hphase := (s.receivePong_effect msg).2.1
        have heq : s.receivePong msg = (s', es) := Except.ok.inj h
        rw [heq] at hphase
        rw [IsClosed, hphase] at hclosed
        exact absurd hclosed hopen
      · cases h
  | leaveLoop =>
      rw [step] at h
      split at h
      · cases h
        rcases hclosed with h | h <;> cases h
      · cases h
  | flushPong =>
      rw [step] at h
      split at h
      · split at h
        · cases h
        · cases h
          exact absurd hclosed hopen
      · cases h
  | flushMempool =>
      rw [step] at h
      split at h
      · rename_i hflush
        have heq : s.flushMempool = (s', es) := Except.ok.inj h
        rw [flushMempool] at heq
        split at heq <;> cases heq <;> exact hflush.2
      · cases h
  | finish =>
      rw [step] at h
      split at h
      · rename_i hmempool
        exact absurd (.inl hmempool) hopen
      · cases h

/-- A callback in a queue that is closed stays there. -/
theorem lost_of_run
    {is : List CallbackInput}
    (hclosed : s.IsClosed)
    (hlost : s.pongCallback.reduceOption ≠ [])
    (hrun : run CallbackQueue.step s is = .ok (s', log)) :
    s'.pongCallback.reduceOption ≠ [] := by
  have hstep : ∀ (s : CallbackQueue) i s' o,
      s.IsClosed ∧ s.pongCallback.reduceOption ≠ [] → s.step i = .ok (s', o) →
      s'.IsClosed ∧ s'.pongCallback.reduceOption ≠ [] := by
    intro s i s' o hI h
    obtain ⟨hclosed', hsame | ⟨-, callback, -, hgrown⟩⟩ := closed_step hI.1 h
    · exact ⟨hclosed', hsame ▸ hI.2⟩
    · refine ⟨hclosed', ?_⟩
      rw [hgrown, List.reduceOption_append]
      exact fun hnil => hI.2 (List.append_eq_nil_iff.mp hnil).1
  exact (run_preserves hstep ⟨hclosed, hlost⟩ hrun).2

/-- If no ping is late, nothing is left in a queue that is closed. -/
theorem empty_of_guarded
    {nonce : UInt64} {is : List CallbackInput}
    (hguard : Guarded CallbackQueue.step PingInTime { nonce := nonce } is)
    (hrun : run CallbackQueue.step { nonce := nonce } is = .ok (s, log)) :
    s.IsClosed → s.pongCallback.reduceOption = [] := by
  have hstep : ∀ (s : CallbackQueue) i s' o,
      (s.IsClosed → s.pongCallback.reduceOption = []) → PingInTime s i →
      s.step i = .ok (s', o) → s'.IsClosed → s'.pongCallback.reduceOption = [] := by
    intro s i s' o hI htime h hclosed'
    by_cases hclosed : s.IsClosed
    · obtain ⟨-, hsame | ⟨hmempool, callback, rfl, hgrown⟩⟩ := closed_step hclosed h
      · rw [hsame]
        exact hI hclosed
      · rw [hgrown, List.reduceOption_append, hI hclosed, reduceOption_singleton]
        cases callback with
        | none =>
            rfl
        | some callback =>
            exact absurd ⟨hmempool, callback, rfl⟩ htime
    · rw [closes_step hclosed hclosed' h]
      rfl
  exact run_state_invariant hstep
    (fun h => absurd h (not_closed_of_reading rfl)) hguard hrun

/-- **Completion callbacks.**  When the thread is done every callback that was
passed has been called once, and those of pings in turn, exactly when the last
call of a mempool callback sent no ping with a callback. -/
theorem served_iff_pingInTime
    {nonce : UInt64} {is : List CallbackInput}
    (hrun : run CallbackQueue.step { nonce := nonce } is = .ok (s, log))
    (hdone : s.phase = .done) :
    Served (is.flatMap (·.passed)) log ↔
      Guarded CallbackQueue.step PingInTime { nonce := nonce } is := by
  rw [served_iff_queue (follows_of_run hrun) hdone]
  constructor
  · intro hempty
    rw [guarded_iff_forall]
    rintro pre i post t o rfl hpre ⟨hmempool, callback, rfl⟩
    obtain ⟨t', o₁, o₂, hpre', hpost, -⟩ := run_append_ok hrun
    rw [hpre] at hpre'
    cases hpre'
    obtain ⟨u, o₃, o₄, hstep, htail, -⟩ := run_cons_ok hpost
    have hlost : u.pongCallback.reduceOption ≠ [] := by
      rw [step, if_pos (by simp [hmempool])] at hstep
      cases hstep
      simp [List.reduceOption_append]
    exact lost_of_run (closed_step (.inl hmempool) hstep).1 hlost htail hempty
  · intro hguard
    exact empty_of_guarded hguard hrun (.inr hdone)

/-- A ping that is answered. -/
theorem served_iff_pingInTime_answered :
    ∃ s log, run CallbackQueue.step { nonce := 7 }
        [.sendPing (some 0), .pong [7, 0, 0, 0, 0, 0, 0, 0], .leaveLoop, .flushMempool] =
          .ok (s, log) ∧
      (Served [0] log ↔ Guarded CallbackQueue.step PingInTime { nonce := 7 }
        [.sendPing (some 0), .pong [7, 0, 0, 0, 0, 0, 0, 0], .leaveLoop, .flushMempool]) := by
  obtain ⟨s, log, hrun, hdone⟩ : ∃ s log, run CallbackQueue.step { nonce := 7 }
      [.sendPing (some 0), .pong [7, 0, 0, 0, 0, 0, 0, 0], .leaveLoop, .flushMempool] =
        .ok (s, log) ∧ s.phase = .done :=
    ⟨_, _, rfl, rfl⟩
  exact ⟨s, log, hrun, served_iff_pingInTime hrun hdone⟩

/-- A mempool request waits when the thread ends, and its callback sends a ping. -/
def pingFromMempool : List CallbackInput :=
  [.peer { env := pairedEnv, call := .sendMempool [] (some 0) }, .leaveLoop, .flushMempool,
    .sendPing (some 1), .finish]

/-- The callback of the ping of `pingFromMempool` is never called. -/
theorem not_served_pingFromMempool :
    ¬ ∀ s log, run CallbackQueue.step { nonce := 7 } pingFromMempool = .ok (s, log) →
      s.phase = .done → Served (pingFromMempool.flatMap (·.passed)) log := by
  intro hserved
  obtain ⟨s, hrun, hdone⟩ : ∃ s, run CallbackQueue.step { nonce := 7 } pingFromMempool =
      .ok (s, [.peer (.sentMempool []), .mempoolCallback 0, .sentPing (some 1)]) ∧
        s.phase = .done :=
    ⟨_, rfl, rfl⟩
  have hlen := (hserved s _ hrun hdone).once.length_eq
  cases hlen

end CallbackQueue

end BreadwalletCore
