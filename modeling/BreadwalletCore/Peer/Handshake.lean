import BreadwalletCore.Data.Machine
import BreadwalletCore.Peer.Bounds

/-!
# The handshake

`_BRPeerDidConnect` runs when a verack is accepted, and only then.  It wants
`sentVerack`, which accepting a version message sets, so a verack in front of
the version message leaves the connection unfinished: the version message does
not call `_BRPeerDidConnect`, and a second verack is unexpected.

The machine here is `_BRPeerAcceptMessage` in the loop of `_peerThreadRoutine`
while the peer is connecting.  What the other handlers return is part of the
input, and so is whether the socket is closed meanwhile.
-/

namespace BreadwalletCore

open Machine
open Segment (slice)
open Payload (VersionInfo)

/-- The fields of `BRPeerContext` that belong to the handshake. -/
structure PeerHandshake where
  status : BRPeerStatus := .connecting
  sentVerack : Bool := false
  gotVerack : Bool := false
  info : VersionInfo := {}
  /-- the thread still reads messages -/
  isReading : Bool := true

/-- A message, with what is decided elsewhere. -/
structure HandshakeInput where
  type : MessageType
  msg : List UInt8
  /-- a block waits for transactions, and this is none -/
  interrupts : Bool := false
  /-- the result of the handler, for the messages that are left out -/
  accepted : Bool := true
  /-- the socket is closed while the message is handled -/
  closes : Bool := false

/-- What has been accepted, and the callback with what the peer then knows. -/
inductive HandshakeEvent
  | version (info : VersionInfo)
  | verack
  | connected (info : VersionInfo)
deriving DecidableEq, Repr

instance (msgLen : ℕ) (a : Access) : Decidable (a.Ok msgLen) :=
  match a with
  | .read off len => inferInstanceAs (Decidable (off + len ≤ msgLen))
  | .sum n => inferInstanceAs (Decidable (n < 2 ^ 64))

namespace PeerHandshake

/-- `_BRPeerDidConnect`. -/
def didConnect (s : PeerHandshake) : PeerHandshake × List HandshakeEvent :=
  if s.status = .connecting ∧ s.sentVerack ∧ s.gotVerack then
    ({ s with status := .connected }, [.connected s.info])
  else (s, [])

/-- `_BRPeerAcceptVersionMessage`.  `BRPeerSendVerackMessage` sets `sentVerack`
whether or not the message gets through. -/
def acceptVersion (s : PeerHandshake) (i : HandshakeInput) :
    Except PeerFault (PeerHandshake × List HandshakeEvent) :=
  let accepted := Payload.acceptVersion s.info i.msg
  if ¬ ∀ a ∈ accepted.trace, a.Ok i.msg.length then throw (.memory .invalidRead)
  else if accepted.value.2 then
    pure ({ s with info := accepted.value.1, sentVerack := true, isReading := !i.closes },
      [.version accepted.value.1])
  else pure ({ s with info := accepted.value.1, isReading := false }, [])

/-- `_BRPeerAcceptVerackMessage`. -/
def acceptVerack (s : PeerHandshake) (i : HandshakeInput) : PeerHandshake × List HandshakeEvent :=
  if s.gotVerack then ({ s with isReading := !i.closes }, [.verack])
  else
    let r := didConnect { s with gotVerack := true, isReading := !i.closes }
    (r.1, .verack :: r.2)

/-- One message.  A message that is too long or not accepted ends the loop. -/
def step (s : PeerHandshake) (i : HandshakeInput) :
    Except PeerFault (PeerHandshake × List HandshakeEvent) :=
  if ¬ s.isReading then pure (s, [])
  else if maxMsgLength < i.msg.length ∨ i.interrupts then
    pure ({ s with isReading := false }, [])
  else
    match i.type with
    | .version => s.acceptVersion i
    | .verack => pure (s.acceptVerack i)
    | _ => pure ({ s with isReading := i.accepted && !i.closes }, [])

end PeerHandshake

/-! ## Well-formed version messages -/

/-- A version message with all its fields, of a protocol that is supported. -/
def WellFormedVersion (msg : List UInt8) : Prop :=
  85 ≤ msg.length ∧ 80 + (varInt msg 80).2 + (varInt msg 80).1 + 4 ≤ msg.length ∧
    minProtoVersion ≤ UInt32.ofNat (LittleEndian.value (slice msg 0 4))

/-- A version message is accepted if it is well-formed. -/
theorem acceptVersion_value
    (info : VersionInfo) (msg : List UInt8)
    (hinside : Payload.Inside msg (Payload.acceptVersion info msg)) :
    (Payload.acceptVersion info msg).value.2 = true ↔ WellFormedVersion msg := by
  have hfits := (Payload.acceptVersion_inside_iff info msg).mp hinside
  rw [Payload.acceptVersion, WellFormedVersion]
  by_cases hshort : 85 > msg.length
  · rw [if_pos hshort]
    exact iff_of_false Bool.false_ne_true (fun h => absurd h.1 (by omega))
  · have hlong : 85 ≤ msg.length := by omega
    have hiff := Payload.string_lt_iff msg 80 80 4 (by omega)
    have hsum := hiff.mpr (hfits hlong)
    rw [if_neg hshort]
    simp only [Traced.value_bind]
    have hneeded : (Payload.lengthNeeded (80 + (Payload.readVarInt msg 80).value.2 +
        (Payload.readVarInt msg 80).value.1 + 4)).value =
          80 + (varInt msg 80).2 + (varInt msg 80).1 + 4 :=
      wrap_of_lt hsum
    rw [hneeded]
    split_ifs with hlarge hold
    · exact iff_of_false not_false (fun h => absurd h.2.1 (by omega))
    · exact iff_of_false not_false (fun h => absurd h.2.2 (UInt32.not_le.mpr hold))
    · exact iff_of_true rfl ⟨hlong, by omega, UInt32.not_lt.mp hold⟩

/-! ## What a message may do -/

/-- The message reaches its handler. -/
def PeerHandshake.Takes (s : PeerHandshake) (i : HandshakeInput) : Prop :=
  s.isReading = true ∧ i.msg.length ≤ maxMsgLength ∧ i.interrupts = false

/-- The effect of a message. -/
inductive HandshakeEffect (s : PeerHandshake) (i : HandshakeInput) (s' : PeerHandshake) :
    List HandshakeEvent → Prop where
  | quiet :
      s'.status = s.status → s'.sentVerack = s.sentVerack → s'.gotVerack = s.gotVerack →
      (s'.isReading = true → s'.info = s.info ∧ s.isReading = true) →
      HandshakeEffect s i s' []
  | version :
      s.Takes i → i.type = .version → WellFormedVersion i.msg →
      s'.status = s.status → s'.sentVerack = true → s'.gotVerack = s.gotVerack →
      HandshakeEffect s i s' [.version s'.info]
  | verackAgain :
      s.isReading = true → s.gotVerack = true → s'.status = s.status →
      s'.sentVerack = s.sentVerack → s'.gotVerack = true → s'.info = s.info →
      HandshakeEffect s i s' [.verack]
  | verackEarly :
      s.isReading = true → s.gotVerack = false → ¬ (s.status = .connecting ∧ s.sentVerack) →
      s'.status = s.status → s'.sentVerack = s.sentVerack → s'.gotVerack = true →
      s'.info = s.info → HandshakeEffect s i s' [.verack]
  | connected :
      s.isReading = true → s.gotVerack = false → s.status = .connecting → s.sentVerack = true →
      s'.status = .connected → s'.sentVerack = true → s'.gotVerack = true → s'.info = s.info →
      HandshakeEffect s i s' [.verack, .connected s.info]

namespace PeerHandshake

variable {s s' : PeerHandshake} {i : HandshakeInput} {es : List HandshakeEvent}

theorem acceptVersion_effect
    (htakes : s.Takes i)
    (htype : i.type = .version)
    (h : s.acceptVersion i = .ok (s', es)) :
    HandshakeEffect s i s' es := by
  rw [acceptVersion] at h
  split at h
  · cases h
  · rename_i hinside
    rw [not_not] at hinside
    have hiff := acceptVersion_value s.info i.msg hinside
    split at h
    · rename_i haccepted
      cases h
      exact .version htakes htype (hiff.mp haccepted) rfl rfl rfl
    · cases h
      exact .quiet rfl rfl rfl (fun h => absurd h Bool.false_ne_true)

theorem acceptVerack_effect
    (hreading : s.isReading = true) (i : HandshakeInput) :
    HandshakeEffect s i (s.acceptVerack i).1 (s.acceptVerack i).2 := by
  by_cases hgot : s.gotVerack = true
  · rw [acceptVerack, if_pos hgot]
    exact .verackAgain hreading hgot rfl rfl hgot rfl
  · have hgot' : s.gotVerack = false := Bool.eq_false_iff.mpr hgot
    rw [acceptVerack, if_neg hgot]
    by_cases hconnect : s.status = .connecting ∧ s.sentVerack = true
    · rw [didConnect, if_pos ⟨hconnect.1, hconnect.2, rfl⟩]
      exact .connected hreading hgot' hconnect.1 hconnect.2 rfl hconnect.2 rfl rfl
    · rw [didConnect, if_neg (fun h => hconnect ⟨h.1, h.2.1⟩)]
      exact .verackEarly hreading hgot' hconnect rfl rfl rfl rfl

/-- Everything a message may do. -/
theorem step_effect
    (h : s.step i = .ok (s', es)) :
    HandshakeEffect s i s' es := by
  rw [step] at h
  split at h
  · cases h
    exact .quiet rfl rfl rfl (fun h => ⟨rfl, h⟩)
  · rename_i hreading
    rw [not_not] at hreading
    split at h
    · cases h
      exact .quiet rfl rfl rfl (fun h => absurd h Bool.false_ne_true)
    · rename_i htaken
      rw [not_or, Bool.not_eq_true] at htaken
      have htakes : s.Takes i := ⟨hreading, Nat.le_of_not_lt htaken.1, htaken.2⟩
      split at h
      · rename_i htype
        exact acceptVersion_effect htakes htype h
      · have heffect := acceptVerack_effect hreading i
        rw [show s.acceptVerack i = (s', es) from Except.ok.inj h] at heffect
        exact heffect
      · cases h
        exact .quiet rfl rfl rfl (fun _ => ⟨rfl, hreading⟩)

end PeerHandshake

/-! ## Runs -/

/-- A version message has been accepted. -/
def VersionAccepted (log : List HandshakeEvent) : Prop :=
  ∃ info, .version info ∈ log

/-- The calls of the callback. -/
def connectedCalls (log : List HandshakeEvent) : List VersionInfo :=
  log.filterMap (fun e => match e with
    | .connected info => some info
    | _ => none)

/-- Each call knows a version message that was accepted in front of it. -/
def KnowsVersion (log : List HandshakeEvent) : Prop :=
  ∀ before info after, log = before ++ .connected info :: after → .version info ∈ before

/-- What a handshake should be: the callback is called once as soon as both
messages are accepted, and then knows an accepted version message. -/
structure Connects (log : List HandshakeEvent) : Prop where
  once : VersionAccepted log → .verack ∈ log → (connectedCalls log).length = 1
  notBefore : ¬ (VersionAccepted log ∧ .verack ∈ log) → connectedCalls log = []
  known : KnowsVersion log

theorem KnowsVersion.concat
    {log : List HandshakeEvent} {e : HandshakeEvent}
    (h : KnowsVersion log)
    (he : ∀ info, e = .connected info → .version info ∈ log) :
    KnowsVersion (log ++ [e]) := by
  intro before info after hlog
  rcases after.eq_nil_or_concat with rfl | ⟨after', e', rfl⟩
  · obtain ⟨rfl, hlast⟩ := List.append_inj' hlog rfl
    exact he info (List.head_eq_of_cons_eq hlast)
  · rw [List.concat_eq_append, ← List.cons_append, ← List.append_assoc] at hlog
    obtain ⟨rfl, -⟩ := List.append_inj' hlog rfl
    exact h before info after' rfl

/-- What is true of the log of every run. -/
structure PeerHandshake.Follows (s : PeerHandshake) (log : List HandshakeEvent) : Prop where
  sent : s.sentVerack = true ↔ VersionAccepted log
  got : s.gotVerack = true ↔ .verack ∈ log
  status : s.status = .connecting ∧ connectedCalls log = [] ∨
    s.status = .connected ∧ s.sentVerack = true ∧ s.gotVerack = true ∧
      (connectedCalls log).length = 1
  info : s.isReading = true → s.sentVerack = true → .version s.info ∈ log
  known : KnowsVersion log

/-- The connection is complete when both veracks are there. -/
def PeerHandshake.Complete (s : PeerHandshake) : Prop :=
  s.sentVerack = true → s.gotVerack = true → s.status = .connected

/-- No well-formed version message comes after a verack that came first. -/
def VersionInTime (s : PeerHandshake) (i : HandshakeInput) : Prop :=
  ¬ (s.Takes i ∧ i.type = .version ∧ WellFormedVersion i.msg ∧
    s.gotVerack = true ∧ s.sentVerack = false)

namespace PeerHandshake

variable {s s' : PeerHandshake} {i : HandshakeInput} {log es : List HandshakeEvent}

@[simp] theorem versionAccepted_concat_version
    (info : VersionInfo) :
    VersionAccepted (log ++ [.version info]) :=
  ⟨info, List.mem_append_right _ (List.mem_singleton_self _)⟩

@[simp] theorem versionAccepted_concat_verack :
    VersionAccepted (log ++ [.verack]) ↔ VersionAccepted log := by
  simp [VersionAccepted]

@[simp] theorem versionAccepted_concat_connected
    (info : VersionInfo) :
    VersionAccepted (log ++ [.verack, .connected info]) ↔ VersionAccepted log := by
  simp [VersionAccepted]

@[simp] theorem connectedCalls_append
    (es : List HandshakeEvent) :
    connectedCalls (log ++ es) = connectedCalls log ++ connectedCalls es :=
  List.filterMap_append

theorem connectedCalls_both
    (info : VersionInfo) :
    connectedCalls [.verack, .connected info] = [info] :=
  rfl

/-- Every message keeps `Follows`. -/
theorem Follows.step
    (hfollows : s.Follows log)
    (h : s.step i = .ok (s', es)) :
    s'.Follows (log ++ es) := by
  cases step_effect h with
  | quiet hstatus hsent hgot hkeeps =>
      rw [List.append_nil]
      refine ⟨hsent ▸ hfollows.sent, hgot ▸ hfollows.got, ?_, ?_, hfollows.known⟩
      · rw [hstatus, hsent, hgot]
        exact hfollows.status
      · intro hreading
        obtain ⟨hinfo, hreading'⟩ := hkeeps hreading
        rw [hsent, hinfo]
        exact hfollows.info hreading'
  | version htakes htype hwell hstatus hsent hgot =>
      refine ⟨?_, ?_, ?_, ?_, ?_⟩
      · exact iff_of_true hsent (versionAccepted_concat_version _)
      · simpa [hgot] using hfollows.got
      · rw [hstatus, hgot, hsent]
        have hstatus' := hfollows.status
        simpa [connectedCalls] using hstatus'.imp id (fun h => ⟨h.1, h.2.2⟩)
      · exact fun _ _ => List.mem_append_right _ (List.mem_singleton_self _)
      · exact hfollows.known.concat (fun info h => by cases h)
  | verackAgain hreading hbefore hstatus hsent hgot hinfo =>
      refine ⟨?_, ?_, ?_, ?_, ?_⟩
      · simpa [hsent] using hfollows.sent
      · simp [hgot]
      · rw [hstatus, hgot, hsent]
        have hstatus' := hfollows.status
        rw [hbefore] at hstatus'
        simpa [connectedCalls] using hstatus'
      · rw [hsent, hinfo]
        exact fun _ h => List.mem_append_left _ (hfollows.info hreading h)
      · exact hfollows.known.concat (fun info h => by cases h)
  | verackEarly hreading hbefore hwaits hstatus hsent hgot hinfo =>
      refine ⟨?_, ?_, ?_, ?_, ?_⟩
      · simpa [hsent] using hfollows.sent
      · simp [hgot]
      · rcases hfollows.status with ⟨hconnecting, hnone⟩ | ⟨-, -, hgot', -⟩
        · refine .inl ⟨hstatus.trans hconnecting, ?_⟩
          simpa [connectedCalls] using hnone
        · rw [hbefore] at hgot'
          cases hgot'
      · rw [hsent, hinfo]
        exact fun _ h => List.mem_append_left _ (hfollows.info hreading h)
      · exact hfollows.known.concat (fun info h => by cases h)
  | connected hreading hbefore hconnecting hsent hstatus hsent' hgot hinfo =>
      have hversion := hfollows.info hreading hsent
      refine ⟨?_, ?_, ?_, ?_, ?_⟩
      · simpa [hsent'] using hfollows.sent.mp hsent
      · simp [hgot]
      · rcases hfollows.status with ⟨-, hnone⟩ | ⟨hconnected, -⟩
        · refine .inr ⟨hstatus, hsent', hgot, ?_⟩
          simp [hnone, connectedCalls_both]
        · rw [hconnecting] at hconnected
          cases hconnected
      · rw [hinfo]
        exact fun _ _ => List.mem_append_left _ hversion
      · rw [List.append_cons]
        refine (hfollows.known.concat (fun info h => by cases h)).concat ?_
        rintro info ⟨⟩
        exact List.mem_append_left _ hversion

/-- A message in time keeps a connection complete. -/
theorem Complete.step
    (hcomplete : s.Complete)
    (hfollows : s.Follows log)
    (htime : VersionInTime s i)
    (h : s.step i = .ok (s', es)) :
    s'.Complete := by
  cases step_effect h with
  | quiet hstatus hsent hgot _ =>
      rwa [Complete, hstatus, hsent, hgot]
  | version htakes htype hwell hstatus hsent hgot =>
      intro _ hgot'
      rw [hgot] at hgot'
      rw [hstatus]
      refine hcomplete ?_ hgot'
      by_contra hnot
      exact htime ⟨htakes, htype, hwell, hgot', Bool.eq_false_iff.mpr hnot⟩
  | verackAgain hreading hbefore hstatus hsent hgot _ =>
      intro hsent' _
      rw [hstatus]
      exact hcomplete (hsent ▸ hsent') hbefore
  | verackEarly hreading hbefore hwaits hstatus hsent hgot _ =>
      intro hsent' _
      rw [hsent] at hsent'
      rw [hstatus]
      rcases hfollows.status with ⟨hconnecting, -⟩ | ⟨hconnected, -⟩
      · exact absurd ⟨hconnecting, hsent'⟩ hwaits
      · exact hconnected
  | connected _ _ _ _ hstatus =>
      exact fun _ _ => hstatus

theorem follows_init : ({} : PeerHandshake).Follows [] where
  sent := iff_of_false Bool.false_ne_true (fun ⟨_, h⟩ => List.not_mem_nil h)
  got := iff_of_false Bool.false_ne_true List.not_mem_nil
  status := .inl ⟨rfl, rfl⟩
  info := fun _ h => absurd h Bool.false_ne_true
  known := by
    intro before info after h
    simp at h

theorem follows_of_run
    {is : List HandshakeInput}
    (hrun : run PeerHandshake.step {} is = .ok (s, log)) :
    s.Follows log :=
  run_invariant (fun _ _ _ _ _ hfollows _ hstep => hfollows.step hstep) follows_init
    (guarded_of_forall (fun _ _ => trivial) is ({} : PeerHandshake)) hrun

/-- In a handshake that is complete the callback was called as it should be. -/
theorem Follows.connects
    (hfollows : s.Follows log)
    (hcomplete : s.Complete) :
    Connects log where
  once := by
    intro hversion hverack
    have hconnected := hcomplete (hfollows.sent.mpr hversion) (hfollows.got.mpr hverack)
    rcases hfollows.status with ⟨hconnecting, -⟩ | ⟨-, -, -, honce⟩
    · rw [hconnected] at hconnecting
      cases hconnecting
    · exact honce
  notBefore := by
    intro hnot
    rcases hfollows.status with ⟨-, hnone⟩ | ⟨-, hsent, hgot, -⟩
    · exact hnone
    · exact absurd ⟨hfollows.sent.mp hsent, hfollows.got.mp hgot⟩ hnot
  known := hfollows.known

/-- A well-formed version message that reaches its handler is accepted. -/
theorem acceptVersion_of_wellFormed
    (hlen : i.msg.length ≤ maxMsgLength)
    (hwell : WellFormedVersion i.msg) :
    ∃ s' info, s.acceptVersion i = .ok (s', [.version info]) := by
  have hmax : maxMsgLength < 2 ^ 64 - 94 := by decide
  have hinside : Payload.Inside i.msg (Payload.acceptVersion s.info i.msg) :=
    (Payload.acceptVersion_inside_iff s.info i.msg).mpr
      (fun _ => by have := hwell.2.1; omega)
  have haccepted := (acceptVersion_value s.info i.msg hinside).mpr hwell
  rw [acceptVersion]
  have hok : ∀ a ∈ (Payload.acceptVersion s.info i.msg).trace, a.Ok i.msg.length := hinside
  rw [if_neg (not_not.mpr hok), if_pos haccepted]
  exact ⟨_, _, rfl⟩

/-- A late version message is accepted, and nothing else happens. -/
theorem step_of_late
    (h : ¬ VersionInTime s i) :
    ∃ s' info, s.step i = .ok (s', [.version info]) := by
  rw [VersionInTime, not_not] at h
  obtain ⟨⟨hreading, hlen, hint⟩, htype, hwell, -, -⟩ := h
  rw [step, if_neg (not_not.mpr hreading), if_neg (not_or.mpr ⟨by omega, by simp [hint]⟩), htype]
  exact acceptVersion_of_wellFormed hlen hwell

/-- **The handshake.**  The callback is called once both messages are accepted,
and not before, as long as no version message comes after the verack. -/
theorem connects_iff_versionInTime
    (is : List HandshakeInput) :
    (∀ pre post s log, is = pre ++ post →
        run PeerHandshake.step {} pre = .ok (s, log) → Connects log) ↔
      Guarded PeerHandshake.step VersionInTime {} is := by
  constructor
  · intro hconnects
    rw [guarded_iff_forall]
    rintro pre i post s log rfl hrun
    by_contra hlate
    have hfollows := follows_of_run hrun
    obtain ⟨s', info, hstep⟩ := step_of_late hlate
    rw [VersionInTime, not_not] at hlate
    obtain ⟨-, -, -, hgot, hsent⟩ := hlate
    have hrun' : run PeerHandshake.step {} (pre ++ [i]) = .ok (s', log ++ [.version info]) :=
      run_concat hrun hstep
    have honce := (hconnects (pre ++ [i]) post s' _ (by simp) hrun').once
      (versionAccepted_concat_version info)
      (List.mem_append_left _ (hfollows.got.mp hgot))
    rcases hfollows.status with ⟨-, hnone⟩ | ⟨-, hsent', -⟩
    · rw [connectedCalls_append, hnone] at honce
      cases honce
    · rw [hsent] at hsent'
      cases hsent'
  · rintro hguard pre post s log rfl hrun
    have hcomplete : s.Complete :=
      (run_invariant (I := fun s log => s.Follows log ∧ s.Complete)
        (fun _ _ _ _ _ h htime hstep => ⟨h.1.step hstep, h.2.step h.1 htime hstep⟩)
        ⟨follows_init, fun h => absurd h Bool.false_ne_true⟩ hguard.of_append hrun).2
    exact (follows_of_run hrun).connects hcomplete

/-- A version message of protocol 80000, behind the verack. -/
def verackThenVersion : List HandshakeInput :=
  [{ type := .verack, msg := [] },
    { type := .version, msg := [0x80, 0x38, 0x01, 0x00] ++ List.replicate 81 0 }]

/-- The connection of `verackThenVersion` is never completed. -/
theorem not_connects_verackThenVersion :
    ¬ ∀ pre post s log, verackThenVersion = pre ++ post →
      run PeerHandshake.step {} pre = .ok (s, log) → Connects log := by
  intro hconnects
  obtain ⟨s, info, hrun⟩ : ∃ s info,
      run PeerHandshake.step {} verackThenVersion = .ok (s, [.verack, .version info]) :=
    ⟨_, _, rfl⟩
  have honce := (hconnects verackThenVersion [] s _ (by simp) hrun).once
    ⟨info, by simp⟩ (by simp)
  cases honce

end PeerHandshake

end BreadwalletCore
