import BreadwalletCore.Platform.WebSocket
import Mathlib.Logic.Function.Basic

/-!
# The send queues of the websocket server

The write part of the serve loop of `BRWebSocketServer`, with `sendBuffer`.

* `kernel` says what the calls of `send` return, one after the other.
* A `WriteSocket` records what has been queued on it and which bytes it has
  taken.  A dropped socket is kept with the reason.
* `none` is a trap.
-/

namespace BreadwalletCore

/-! ## The calls of `send` -/

def EAGAIN : ℤ := 35

def EWOULDBLOCK : ℤ := EAGAIN

/-- What `send` returns: a number of bytes, or -1 with `errno`. -/
inductive SendResult
  | sent (count : ℕ)
  | failed (errno : ℤ)
deriving DecidableEq

namespace SendResult

/-- The call would have to wait. -/
def WouldBlock : SendResult → Prop
  | .sent _ => False
  | .failed errno => errno = EWOULDBLOCK ∨ errno = EAGAIN

/-- A call that sends takes at least one of the `n` bytes and at most all of
them. -/
def accepted (n count : ℕ) : ℕ :=
  max 1 (min n count)

theorem accepted_pos
    (n count : ℕ) :
    0 < accepted n count := by
  simp [accepted]

theorem accepted_le
    {n : ℕ}
    (hn : 0 < n)
    (count : ℕ) :
    accepted n count ≤ n := by
  rw [accepted]
  omega

end SendResult

/-- What `sendBuffer` has done: the number of the next call of `send`, the bytes
counted in `sent`, the bytes that the socket has taken, and the `errno` of the
call for which it throws. -/
structure SendRun where
  calls : ℕ
  sent : ℕ
  wire : List UInt8
  thrown : Option ℤ
deriving DecidableEq

/-- The loop of `sendBuffer`. -/
def sendBufferFrom (kernel : ℕ → SendResult) (buffer : List UInt8) (calls sent : ℕ) :
    SendRun :=
  if sent < buffer.length then
    match kernel calls with
    | .sent count =>
        let s := SendResult.accepted (buffer.length - sent) count
        let r := sendBufferFrom kernel buffer (calls + 1) (sent + s)
        { r with wire := (buffer.drop sent).take s ++ r.wire }
    | .failed errno =>
        -- the result itself is compared, which is -1 here, and not `errno`
        let serr : ℤ := -1
        if serr = EWOULDBLOCK ∨ serr = EAGAIN then ⟨calls + 1, sent, [], none⟩
        else ⟨calls + 1, sent, [], some errno⟩
  else ⟨calls, sent, [], none⟩
termination_by buffer.length - sent
decreasing_by
  have hpos := SendResult.accepted_pos (buffer.length - sent) count
  omega

/-- `sendBuffer`. -/
def sendBuffer (kernel : ℕ → SendResult) (calls : ℕ) (buffer : List UInt8) : SendRun :=
  sendBufferFrom kernel buffer calls 0

/-! ## The write part of the serve loop -/

/-- The payloads of a queue, one behind the other. -/
def queueBytes (queue : List (SocketOpcode × List UInt8)) : List UInt8 :=
  queue.flatMap (fun entry => entry.2)

structure WriteSocket where
  sendq : List (SocketOpcode × List UInt8)
  /-- all payloads put into `sendq` since the start -/
  queued : List (SocketOpcode × List UInt8)
  /-- the bytes that the socket has taken -/
  wire : List UInt8

/-- Why the server kills a socket. -/
inductive DropReason
  | readFailed
  | sendFailed (errno : ℤ)
  | closeSent
deriving DecidableEq

structure WriteHost where
  sockets : ℤ → Option WriteSocket
  dropped : List (WriteSocket × DropReason)
  calls : ℕ

/-- `payload.suffix(from: start)`, which traps at a negative position. -/
def suffixFrom (payload : List UInt8) (start : ℤ) : Option (List UInt8) :=
  if 0 ≤ start then some (payload.drop start.toNat) else none

namespace WriteHost

/-- The server with a queue on each of its sockets. -/
def start (queues : ℤ → Option (List (SocketOpcode × List UInt8))) : WriteHost where
  sockets := fun fd => (queues fd).map (fun queue => ⟨queue, queue, []⟩)
  dropped := []
  calls := 0

def put (h : WriteHost) (fd : ℤ) (ws : WriteSocket) : WriteHost :=
  { h with sockets := Function.update h.sockets fd (some ws) }

/-- `kill`, `socketDidDisconnect` and `removeValue`. -/
def drop (h : WriteHost) (fd : ℤ) (ws : WriteSocket) (reason : DropReason) : WriteHost :=
  { h with
      sockets := Function.update h.sockets fd none
      dropped := h.dropped ++ [(ws, reason)] }

/-- What is done for a queue with a first entry.  The first component says
whether the loop goes on. -/
def writeEntry (kernel : ℕ → SendResult) (h : WriteHost) (fd : ℤ) (ws : WriteSocket)
    (entry : SocketOpcode × List UInt8) (rest : List (SocketOpcode × List UInt8)) :
    Option (Bool × WriteHost) :=
  let r := sendBuffer kernel h.calls entry.2
  let ws := { ws with sendq := rest, wire := ws.wire ++ r.wire }
  let h := { h with calls := r.calls }
  match r.thrown with
  | some errno => some (true, h.drop fd ws (.sendFailed errno))
  | none =>
      if r.sent ≠ entry.2.length then
        (suffixFrom entry.2 ((r.sent : ℤ) - 1)).map (fun remaining =>
          (false, h.put fd { ws with sendq := (entry.1, remaining) :: rest }))
      else if entry.1 = .close then some (true, h.drop fd ws .closeSent)
      else some (true, h.put fd ws)

/-- One turn of the loop over the sockets that are ready. -/
def writeOne (kernel : ℕ → SendResult) (h : WriteHost) (fd : ℤ) :
    Option (Bool × WriteHost) :=
  match h.sockets fd with
  | none => some (true, h)
  | some ws =>
      match ws.sendq with
      -- `removeFirst` of an empty queue
      | [] => none
      | entry :: rest => h.writeEntry kernel fd ws entry rest

/-- The loop over the sockets that are ready. -/
def writeLoop (kernel : ℕ → SendResult) : WriteHost → List ℤ → Option WriteHost
  | h, [] => some h
  | h, fd :: fds =>
      (h.writeOne kernel fd).bind
        (fun next => if next.1 then writeLoop kernel next.2 fds else some next.2)

/-- The sockets with something to send. -/
def hasQueue (h : WriteHost) (fd : ℤ) : Bool :=
  (h.sockets fd).any (fun ws => 0 < ws.sendq.length)

/-- What happens at the server. -/
inductive Event
  /-- a payload is put into a queue -/
  | queue (fd : ℤ) (opcode : SocketOpcode) (payload : List UInt8)
  /-- a round of the write part; `bw_select` finds `ready` writable -/
  | round (ready : List ℤ)
  /-- `handleRead` throws -/
  | readFails (fd : ℤ)

def step (kernel : ℕ → SendResult) (h : WriteHost) : Event → Option WriteHost
  | .queue fd opcode payload =>
      some ((h.sockets fd).elim h (fun ws =>
        h.put fd
          { ws with
              sendq := ws.sendq ++ [(opcode, payload)]
              queued := ws.queued ++ [(opcode, payload)] }))
  | .round ready => h.writeLoop kernel (ready.dedup.filter h.hasQueue)
  | .readFails fd =>
      some ((h.sockets fd).elim h (fun ws => h.drop fd ws .readFailed))

def run (kernel : ℕ → SendResult) : WriteHost → List Event → Option WriteHost
  | h, [] => some h
  | h, e :: es => (h.step kernel e).bind (fun h' => run kernel h' es)

/-- A socket is dropped on an error other than `EAGAIN` and `EWOULDBLOCK`, or
behind a close frame that it has taken as a whole. -/
def Justified (ws : WriteSocket) : DropReason → Prop
  | .readFailed => True
  | .sendFailed errno => errno ≠ EWOULDBLOCK ∧ errno ≠ EAGAIN
  | .closeSent => ∃ pre payload,
      ws.queued = pre ++ (.close, payload) :: ws.sendq ∧
        ws.wire = queueBytes (pre ++ [(.close, payload)])

/-- Nothing is lost and nothing is sent twice: the bytes on the wire and the
bytes of the queue are together the bytes that have been queued. -/
structure Lossless (h : WriteHost) : Prop where
  sockets : ∀ fd, ∀ ws ∈ h.sockets fd,
    ws.wire ++ queueBytes ws.sendq = queueBytes ws.queued
  dropped : ∀ d ∈ h.dropped,
    d.1.wire <+: queueBytes d.1.queued ∧ Justified d.1 d.2

end WriteHost

/-! ## One payload -/

/-- A call of `send` without an error. -/
def SendResult.Sends : SendResult → Prop
  | .sent _ => True
  | .failed _ => False

/-- What `sendBuffer` does from a position of its buffer on. -/
structure SendRun.Right (kernel : ℕ → SendResult) (buffer : List UInt8) (calls sent : ℕ)
    (r : SendRun) : Prop where
  low : sent ≤ r.sent
  high : r.sent ≤ buffer.length
  wire : r.wire = (buffer.drop sent).take (r.sent - sent)
  later : calls ≤ r.calls
  complete : r.thrown = none → r.sent = buffer.length
  sends : r.thrown = none → ∀ j, calls ≤ j → j < r.calls → (kernel j).Sends
  throws : ∀ errno ∈ r.thrown, ∃ m, r.calls = m + 1 ∧ calls ≤ m ∧
    kernel m = .failed errno ∧ ∀ j, calls ≤ j → j < m → (kernel j).Sends

/-- A call that sends `s` bytes, in front of the others. -/
theorem SendRun.Right.cons
    {kernel : ℕ → SendResult} {buffer : List UInt8} {calls sent s count : ℕ} {r : SendRun}
    (hr : r.Right kernel buffer (calls + 1) (sent + s))
    (hk : kernel calls = .sent count) :
    ({ r with wire := (buffer.drop sent).take s ++ r.wire } : SendRun).Right kernel buffer
      calls sent := by
  have hlow := hr.low
  have hlater := hr.later
  have hfirst : (kernel calls).Sends := by
    rw [hk]
    trivial
  refine ⟨by show sent ≤ r.sent; omega, hr.high, ?_, by show calls ≤ r.calls; omega,
    hr.complete, ?_, ?_⟩
  · show (buffer.drop sent).take s ++ r.wire = (buffer.drop sent).take (r.sent - sent)
    rw [hr.wire, ← List.drop_drop, show r.sent - sent = s + (r.sent - (sent + s)) by omega,
      List.take_add]
  · intro hthrown j hj hlt
    rcases Nat.eq_or_lt_of_le hj with rfl | hj
    · exact hfirst
    · exact hr.sends hthrown j hj hlt
  · intro errno herrno
    obtain ⟨m, hm, hle, hfail, hbefore⟩ := hr.throws errno herrno
    refine ⟨m, hm, by omega, hfail, ?_⟩
    intro j hj hlt
    rcases Nat.eq_or_lt_of_le hj with rfl | hj
    · exact hfirst
    · exact hbefore j hj hlt

theorem sendBufferFrom_right
    (kernel : ℕ → SendResult) (buffer : List UInt8) (calls sent : ℕ)
    (hsent : sent ≤ buffer.length) :
    (sendBufferFrom kernel buffer calls sent).Right kernel buffer calls sent := by
  induction calls, sent using sendBufferFrom.induct kernel buffer with
  | case1 calls sent h count hk s ih =>
      have hle : s ≤ buffer.length - sent :=
        SendResult.accepted_le (by omega) count
      rw [sendBufferFrom, if_pos h]
      simp only [hk]
      exact (ih (by omega)).cons hk
  | case2 calls sent h errno hk serr hblock =>
      -- -1 is none of the error codes
      exact absurd hblock (by decide)
  | case3 calls sent h errno hk serr hblock =>
      have heq : sendBufferFrom kernel buffer calls sent =
          ⟨calls + 1, sent, [], some errno⟩ := by
        rw [sendBufferFrom, if_pos h]
        simp only [hk]
        exact if_neg hblock
      rw [heq]
      refine ⟨le_refl _, hsent, by simp, by simp, by simp, by simp, ?_⟩
      intro errno' herrno
      obtain rfl : errno = errno' := Option.some.inj herrno
      exact ⟨calls, rfl, le_refl _, hk, fun j hj hlt => absurd hlt (by omega)⟩
  | case4 calls sent h =>
      rw [sendBufferFrom, if_neg h]
      refine ⟨le_refl _, hsent, by simp, le_refl _, ?_, ?_, by simp⟩
      · intro _
        show sent = buffer.length
        omega
      · intro _ j hj hlt
        exact absurd hlt (Nat.not_lt.mpr hj)

/-- A payload is sent as a whole, or `sendBuffer` throws for the last call. -/
theorem sendBuffer_right
    (kernel : ℕ → SendResult) (calls : ℕ) (buffer : List UInt8) :
    (sendBuffer kernel calls buffer).Right kernel buffer calls 0 :=
  sendBufferFrom_right kernel buffer calls 0 (Nat.zero_le _)

theorem SendRun.Right.wire_eq
    {kernel : ℕ → SendResult} {buffer : List UInt8} {calls : ℕ} {r : SendRun}
    (hr : r.Right kernel buffer calls 0) :
    r.wire = buffer.take r.sent := by
  rw [hr.wire, List.drop_zero, Nat.sub_zero]

/-- A payload that is sent as a whole has met no error. -/
theorem SendRun.Right.errors_of_complete
    {kernel : ℕ → SendResult} {buffer : List UInt8} {calls : ℕ} {r : SendRun}
    (hr : r.Right kernel buffer calls 0)
    (hthrown : r.thrown = none)
    (errno : ℤ) :
    (∃ k < r.calls, kernel k = .failed errno) ↔ ∃ k < calls, kernel k = .failed errno := by
  constructor
  · rintro ⟨k, hk, hfail⟩
    by_cases hlt : k < calls
    · exact ⟨k, hlt, hfail⟩
    · have hsends := hr.sends hthrown k (by omega) hk
      rw [hfail] at hsends
      exact hsends.elim
  · rintro ⟨k, hk, hfail⟩
    exact ⟨k, hk.trans_le hr.later, hfail⟩

/-- The error for which `sendBuffer` throws is the only one that it has met. -/
theorem SendRun.Right.errors_of_throws
    {kernel : ℕ → SendResult} {buffer : List UInt8} {calls : ℕ} {r : SendRun} {errno : ℤ}
    (hr : r.Right kernel buffer calls 0)
    (hthrown : r.thrown = some errno)
    (errno' : ℤ) :
    (∃ k < r.calls, kernel k = .failed errno') ↔
      (∃ k < calls, kernel k = .failed errno') ∨ errno = errno' := by
  obtain ⟨m, hm, hle, hfail, hbefore⟩ := hr.throws errno hthrown
  constructor
  · rintro ⟨k, hk, hk'⟩
    by_cases hlt : k < calls
    · exact Or.inl ⟨k, hlt, hk'⟩
    · by_cases hkm : k < m
      · have hsends := hbefore k (by omega) hkm
        rw [hk'] at hsends
        exact hsends.elim
      · obtain rfl : k = m := by omega
        rw [hfail] at hk'
        exact Or.inr (SendResult.failed.inj hk')
  · rintro (⟨k, hk, hk'⟩ | rfl)
    · exact ⟨k, hk.trans_le hr.later, hk'⟩
    · exact ⟨m, by omega, hfail⟩

/-! ## One step -/

theorem queueBytes_append
    (as bs : List (SocketOpcode × List UInt8)) :
    queueBytes (as ++ bs) = queueBytes as ++ queueBytes bs :=
  List.flatMap_append

theorem queueBytes_cons
    (entry : SocketOpcode × List UInt8) (rest : List (SocketOpcode × List UInt8)) :
    queueBytes (entry :: rest) = entry.2 ++ queueBytes rest :=
  List.flatMap_cons

/-- Between two turns a socket has taken some payloads of its queue, all of them
as a whole. -/
def WriteSocket.Whole (ws : WriteSocket) : Prop :=
  ∃ done, ws.queued = done ++ ws.sendq ∧ ws.wire = queueBytes done

namespace WriteHost

variable {kernel : ℕ → SendResult}

/-- A dropped socket has taken a part of its queue, and the reason fits. -/
structure DroppedRight (d : WriteSocket × DropReason) : Prop where
  wire : d.1.wire <+: queueBytes d.1.queued
  closed : d.2 = .closeSent → Justified d.1 .closeSent

/-- The invariant of the write part.  The errors for which a socket has been
dropped are the errors of `send`. -/
structure Inv (kernel : ℕ → SendResult) (h : WriteHost) : Prop where
  sockets : ∀ fd, ∀ ws ∈ h.sockets fd, ws.Whole
  dropped : ∀ d ∈ h.dropped, DroppedRight d
  errors : ∀ errno, (∃ d ∈ h.dropped, d.2 = .sendFailed errno) ↔
    ∃ k < h.calls, kernel k = .failed errno

theorem Inv.start
    (queues : ℤ → Option (List (SocketOpcode × List UInt8))) :
    Inv kernel (start queues) := by
  refine ⟨?_, by simp [WriteHost.start], by simp [WriteHost.start]⟩
  intro fd ws hws
  obtain ⟨queue, -, rfl⟩ := Option.map_eq_some_iff.mp hws
  exact ⟨[], by simp, rfl⟩

/-- A socket is put back, behind calls without an error. -/
theorem Inv.put
    {h : WriteHost} {fd : ℤ} {ws : WriteSocket} {calls : ℕ}
    (hinv : h.Inv kernel)
    (hws : ws.Whole)
    (hcalls : ∀ errno, (∃ k < calls, kernel k = .failed errno) ↔
      ∃ k < h.calls, kernel k = .failed errno) :
    (({ h with calls := calls } : WriteHost).put fd ws).Inv kernel := by
  refine ⟨?_, hinv.dropped, fun errno => (hinv.errors errno).trans (hcalls errno).symm⟩
  intro fd' ws' hws'
  replace hws' : ws' ∈ Function.update h.sockets fd (some ws) fd' := hws'
  by_cases hfd : fd' = fd
  · subst hfd
    rw [Function.update_self] at hws'
    exact Option.some.inj hws' ▸ hws
  · rw [Function.update_of_ne hfd] at hws'
    exact hinv.sockets fd' ws' hws'

/-- A socket is dropped, for the error of the last call if there is one. -/
theorem Inv.drop
    {h : WriteHost} {fd : ℤ} {ws : WriteSocket} {calls : ℕ} {reason : DropReason}
    (hinv : h.Inv kernel)
    (hws : DroppedRight (ws, reason))
    (hcalls : ∀ errno, (∃ k < calls, kernel k = .failed errno) ↔
      (∃ k < h.calls, kernel k = .failed errno) ∨ reason = .sendFailed errno) :
    (({ h with calls := calls } : WriteHost).drop fd ws reason).Inv kernel := by
  refine ⟨?_, ?_, ?_⟩
  · intro fd' ws' hws'
    replace hws' : ws' ∈ Function.update h.sockets fd none fd' := hws'
    by_cases hfd : fd' = fd
    · subst hfd
      rw [Function.update_self] at hws'
      exact absurd hws' (Option.not_mem_none _)
    · rw [Function.update_of_ne hfd] at hws'
      exact hinv.sockets fd' ws' hws'
  · intro d hd
    rcases List.mem_append.mp (show d ∈ h.dropped ++ [(ws, reason)] from hd) with hd | hd
    · exact hinv.dropped d hd
    · exact List.mem_singleton.mp hd ▸ hws
  · intro errno
    have hmem : (∃ d ∈ h.dropped ++ [(ws, reason)], d.2 = .sendFailed errno) ↔
        (∃ d ∈ h.dropped, d.2 = .sendFailed errno) ∨ reason = .sendFailed errno := by
      simp [List.mem_append, or_and_right, exists_or]
    exact hmem.trans ((or_congr (hinv.errors errno) Iff.rfl).trans (hcalls errno).symm)

/-- A payload of the queue of a socket: it is sent as a whole, or the socket is
dropped. -/
theorem Inv.writeEntry
    {h : WriteHost} {fd : ℤ} {ws : WriteSocket}
    {entry : SocketOpcode × List UInt8} {rest : List (SocketOpcode × List UInt8)}
    (hinv : h.Inv kernel)
    (hws : ws.Whole)
    (hq : ws.sendq = entry :: rest) :
    ∃ h', h.writeEntry kernel fd ws entry rest = some (true, h') ∧ h'.Inv kernel ∧
      h.calls ≤ h'.calls ∧ ∀ fd' ≠ fd, h'.sockets fd' = h.sockets fd' := by
  obtain ⟨done, hqueued, hwire⟩ := hws
  rw [hq] at hqueued
  have hr := sendBuffer_right kernel h.calls entry.2
  rw [WriteHost.writeEntry]
  generalize sendBuffer kernel h.calls entry.2 = r at hr
  cases hthrown : r.thrown with
  | some errno =>
      refine ⟨_, rfl, hinv.drop ⟨?_, by simp⟩ ?_, hr.later, ?_⟩
      · -- a part of the payload is on the wire
        show ws.wire ++ r.wire <+: queueBytes ws.queued
        rw [hqueued, queueBytes_append, queueBytes_cons, hwire, hr.wire_eq,
          List.prefix_append_right_inj]
        exact List.IsPrefix.trans ( List.take_prefix _ _) (List.prefix_append _ _)
      · intro errno'
        rw [hr.errors_of_throws hthrown errno', DropReason.sendFailed.injEq]
      · intro fd' hfd
        exact Function.update_of_ne hfd _ _
  | none =>
      have hcomplete := hr.complete hthrown
      have hcalls := hr.errors_of_complete hthrown
      have hall : ws.wire ++ r.wire = queueBytes (done ++ [entry]) := by
        rw [queueBytes_append, queueBytes_cons, hwire, hr.wire_eq, hcomplete, List.take_length]
        simp [queueBytes]
      have hqueued' : ws.queued = (done ++ [entry]) ++ rest := by
        rw [hqueued]
        simp
      dsimp only
      rw [if_neg (not_not.mpr hcomplete)]
      by_cases hclose : entry.1 = .close
      · rw [if_pos hclose]
        refine ⟨_, rfl, hinv.drop ⟨?_, ?_⟩ ?_, hr.later, ?_⟩
        · show ws.wire ++ r.wire <+: queueBytes ws.queued
          rw [hall, hqueued', queueBytes_append (done ++ [entry])]
          exact List.prefix_append _ _
        · intro _
          refine ⟨done, entry.2, ?_, ?_⟩
          · show ws.queued = done ++ (SocketOpcode.close, entry.2) :: rest
            rw [← hclose]
            exact hqueued
          · show ws.wire ++ r.wire = queueBytes (done ++ [(SocketOpcode.close, entry.2)])
            rw [← hclose]
            exact hall
        · intro errno
          rw [hcalls errno]
          simp
        · intro fd' hfd
          exact Function.update_of_ne hfd _ _
      · rw [if_neg hclose]
        refine ⟨_, rfl, hinv.put ⟨done ++ [entry], hqueued', hall⟩ hcalls, hr.later, ?_⟩
        intro fd' hfd
        exact Function.update_of_ne hfd _ _

theorem Inv.writeOne
    {h : WriteHost} {fd : ℤ}
    (hinv : h.Inv kernel)
    (hq : h.hasQueue fd = true) :
    ∃ h', h.writeOne kernel fd = some (true, h') ∧ h'.Inv kernel ∧
      h.calls ≤ h'.calls ∧ ∀ fd' ≠ fd, h'.sockets fd' = h.sockets fd' := by
  rw [hasQueue, Option.any_eq_true] at hq
  obtain ⟨ws, hws, hq⟩ := hq
  obtain ⟨entry, rest, hsendq⟩ := List.exists_cons_of_length_pos (of_decide_eq_true hq)
  rw [WriteHost.writeOne, hws]
  simp only [hsendq]
  exact hinv.writeEntry (hinv.sockets fd ws hws) hsendq

theorem Inv.writeLoop
    {h : WriteHost} {fds : List ℤ}
    (hinv : h.Inv kernel)
    (hnodup : fds.Nodup)
    (hq : ∀ fd ∈ fds, h.hasQueue fd = true) :
    ∃ h', h.writeLoop kernel fds = some h' ∧ h'.Inv kernel ∧ h.calls ≤ h'.calls := by
  induction fds generalizing h with
  | nil =>
      exact ⟨h, rfl, hinv, le_refl _⟩
  | cons fd fds ih =>
      obtain ⟨hfd, hnodup⟩ := List.nodup_cons.mp hnodup
      obtain ⟨h₁, hone, hinv₁, hle₁, hframe⟩ := hinv.writeOne (hq fd (by simp))
      -- the other sockets still have their queues
      have hq₁ : ∀ fd' ∈ fds, h₁.hasQueue fd' = true := by
        intro fd' hfd'
        have hne : fd' ≠ fd := fun heq => hfd (heq ▸ hfd')
        rw [hasQueue, hframe fd' hne]
        exact hq fd' (List.mem_cons_of_mem _ hfd')
      obtain ⟨h', hloop, hinv', hle'⟩ := ih hinv₁ hnodup hq₁
      refine ⟨h', ?_, hinv', hle₁.trans hle'⟩
      rw [WriteHost.writeLoop, hone]
      exact hloop

theorem Inv.step
    {h : WriteHost}
    (hinv : h.Inv kernel)
    (e : Event) :
    ∃ h', h.step kernel e = some h' ∧ h'.Inv kernel ∧ h.calls ≤ h'.calls := by
  cases e with
  | queue fd opcode payload =>
      refine ⟨_, rfl, ?_⟩
      cases hws : h.sockets fd with
      | none =>
          exact ⟨hinv, le_refl _⟩
      | some ws =>
          obtain ⟨done, hqueued, hwire⟩ := hinv.sockets fd ws hws
          refine ⟨?_, le_refl _⟩
          refine hinv.put ⟨done, ?_, hwire⟩ (fun _ => Iff.rfl)
          show ws.queued ++ [(opcode, payload)] = done ++ (ws.sendq ++ [(opcode, payload)])
          rw [hqueued, List.append_assoc]
  | round ready =>
      refine hinv.writeLoop ((List.nodup_dedup ready).filter _) ?_
      intro fd hfd
      exact (List.mem_filter.mp hfd).2
  | readFails fd =>
      refine ⟨_, rfl, ?_⟩
      cases hws : h.sockets fd with
      | none =>
          exact ⟨hinv, le_refl _⟩
      | some ws =>
          obtain ⟨done, hqueued, hwire⟩ := hinv.sockets fd ws hws
          refine ⟨?_, le_refl _⟩
          refine hinv.drop ⟨?_, by simp⟩ (by simp)
          show ws.wire <+: queueBytes ws.queued
          rw [hqueued, queueBytes_append, hwire]
          exact List.prefix_append _ _

/-! ## Runs -/

/-- No run traps, and the calls of `send` are counted up. -/
theorem Inv.run
    {h : WriteHost}
    (hinv : h.Inv kernel)
    (events : List Event) :
    ∃ h', h.run kernel events = some h' ∧ h'.Inv kernel ∧ h.calls ≤ h'.calls := by
  induction events generalizing h with
  | nil =>
      exact ⟨h, rfl, hinv, le_refl _⟩
  | cons e es ih =>
      obtain ⟨h₁, hstep, hinv₁, hle₁⟩ := hinv.step e
      obtain ⟨h', hrun, hinv', hle'⟩ := ih hinv₁
      refine ⟨h', ?_, hinv', hle₁.trans hle'⟩
      rw [WriteHost.run, hstep]
      exact hrun

theorem run_append
    (h : WriteHost) (as bs : List Event) :
    h.run kernel (as ++ bs) = (h.run kernel as).bind (fun h' => h'.run kernel bs) := by
  induction as generalizing h with
  | nil =>
      rfl
  | cons e es ih =>
      rw [List.cons_append, WriteHost.run, WriteHost.run, Option.bind_assoc]
      exact Option.bind_congr (fun h' _ => ih h')

theorem wouldBlock_iff
    {r : SendResult} :
    r.WouldBlock ↔ r = .failed EAGAIN := by
  cases r with
  | sent count =>
      simp [SendResult.WouldBlock]
  | failed errno =>
      simp [SendResult.WouldBlock, EWOULDBLOCK]

/-- A state is right if and only if no call so far would have had to wait. -/
theorem Inv.lossless_iff
    {h : WriteHost}
    (hinv : h.Inv kernel) :
    h.Lossless ↔ ∀ k < h.calls, ¬ (kernel k).WouldBlock := by
  constructor
  · intro hright k hk hblock
    obtain ⟨d, hd, hreason⟩ := (hinv.errors EAGAIN).mpr ⟨k, hk, wouldBlock_iff.mp hblock⟩
    have hjust := (hright.dropped d hd).2
    rw [hreason] at hjust
    exact hjust.2 rfl
  · intro hcalls
    refine ⟨?_, ?_⟩
    · intro fd ws hws
      obtain ⟨done, hqueued, hwire⟩ := hinv.sockets fd ws hws
      rw [hqueued, hwire, queueBytes_append]
    · intro d hd
      refine ⟨(hinv.dropped d hd).wire, ?_⟩
      cases hreason : d.2 with
      | readFailed =>
          trivial
      | sendFailed errno =>
          obtain ⟨k, hk, hfail⟩ := (hinv.errors errno).mp ⟨d, hd, hreason⟩
          have hne : errno ≠ EAGAIN := by
            rintro rfl
            exact hcalls k hk (wouldBlock_iff.mpr hfail)
          exact ⟨hne, hne⟩
      | closeSent =>
          exact (hinv.dropped d hd).closed hreason

/-- The send queues in every state of a run: nothing is lost, nothing is
repeated and no connection is dropped without a reason, if and only if no call
of `send` would have had to wait. -/
theorem run_lossless_iff
    (kernel : ℕ → SendResult) (queues : ℤ → Option (List (SocketOpcode × List UInt8)))
    (events : List Event) :
    (∀ pre, pre <+: events → ∃ h, (start queues).run kernel pre = some h ∧ h.Lossless) ↔
      ∃ h, (start queues).run kernel events = some h ∧
        ∀ k < h.calls, ¬ (kernel k).WouldBlock := by
  constructor
  · intro hall
    obtain ⟨h, hrun, hright⟩ := hall events List.prefix_rfl
    obtain ⟨h', hrun', hinv, -⟩ := @Inv.run kernel _ (Inv.start queues) events
    obtain rfl : h = h' := Option.some.inj (hrun.symm.trans hrun')
    exact ⟨h, hrun, hinv.lossless_iff.mp hright⟩
  · rintro ⟨h, hrun, hcalls⟩ pre ⟨post, rfl⟩
    obtain ⟨h₁, hrun₁, hinv₁, -⟩ := @Inv.run kernel _ (Inv.start queues) pre
    obtain ⟨h₂, hrun₂, -, hle⟩ := hinv₁.run post
    rw [run_append, hrun₁, Option.bind_some, hrun₂] at hrun
    obtain rfl : h₂ = h := Option.some.inj hrun
    exact ⟨h₁, hrun₁, hinv₁.lossless_iff.mpr (fun k hk => hcalls k (by omega))⟩

/-- A text frame on a socket whose buffer is full: the connection is dropped. -/
theorem not_run_lossless :
    ¬ ∀ (kernel : ℕ → SendResult) (queues : ℤ → Option (List (SocketOpcode × List UInt8)))
        (events : List Event) (pre : List Event), pre <+: events →
      ∃ h, (start queues).run kernel pre = some h ∧ h.Lossless := by
  intro hall
  obtain ⟨h, hrun, hright⟩ := hall (fun _ => .failed EAGAIN)
    (fun fd => if fd = 3 then some [(.text, [0x81, 0x00])] else none)
    [.round [3]] [.round [3]] List.prefix_rfl
  have hsend : sendBuffer (fun _ => .failed EAGAIN) 0 [0x81, 0x00] =
      ⟨1, 0, [], some EAGAIN⟩ := by
    rw [sendBuffer, sendBufferFrom]
    decide
  have hdropped : h.dropped.map (fun d => d.2) = [.sendFailed EAGAIN] := by
    have hq : ([3] : List ℤ).dedup.filter (hasQueue (start
        (fun fd => if fd = 3 then some [(.text, [0x81, 0x00])] else none))) = [3] := by
      decide
    rw [run, step, hq, writeLoop, writeOne] at hrun
    simp only [start, if_true, Option.map_some, writeEntry, hsend] at hrun
    rw [← Option.some.inj hrun]
    rfl
  obtain ⟨d, hd, hreason⟩ := List.mem_map.mp (hdropped ▸ List.mem_singleton_self _)
  have hjust := (hright.dropped d hd).2
  rw [hreason] at hjust
  exact hjust.2 rfl

end WriteHost

end BreadwalletCore
