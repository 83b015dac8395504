import BreadwalletCore.WalletManager.Auth
import Mathlib.Data.List.DropRight

/-!
# The lockout

Runs of `authenticate(pin:)` and of process restarts, which empty the list of
failed pins.  A call that traps ends its process.  What holds since the last
accepted pin is read off the log of the calls.
-/

namespace BreadwalletCore

variable {Pin : Type}

inductive PinEvent (Pin : Type) where
  | authenticate (ctx : AuthContext) (pin : Pin)
  | restart

/-- A call of `authenticate` with the items before and after it. -/
structure AuthRecord (Pin : Type) where
  before : PinItems Pin
  ctx : AuthContext
  pin : Pin
  outcome : AuthOutcome
  after : PinItems Pin

/-- The items behind a call. -/
def settle (r : PinItems Pin × AuthOutcome) : PinItems Pin :=
  if r.2.isTrapped then r.1.relaunch else r.1

section Run

variable [DecidableEq Pin]

/-- The record of a call. -/
def recordOf (s : PinItems Pin) (ctx : AuthContext) (pin : Pin) : AuthRecord Pin where
  before := s
  ctx := ctx
  pin := pin
  outcome := (s.authenticate ctx pin).2
  after := settle (s.authenticate ctx pin)

def pinStep (s : PinItems Pin) :
    PinEvent Pin → Except Empty (PinItems Pin × List (AuthRecord Pin))
  | .authenticate ctx pin => .ok (settle (s.authenticate ctx pin), [recordOf s ctx pin])
  | .restart => .ok (s.relaunch, [])

end Run

/-- The calls since the last pin that was accepted. -/
def sinceAccepted (log : List (AuthRecord Pin)) : List (AuthRecord Pin) :=
  log.rtakeWhile (fun r => !r.outcome.accepts)

/-- The distinct pins that were compared and wrong. -/
def wrongPins [DecidableEq Pin] (log : List (AuthRecord Pin)) : Finset Pin :=
  ((log.filter (fun r => r.outcome.rejects)).map AuthRecord.pin).toFinset

/-- The lockout of the items at a clock reading. -/
def LockedUntil (s : PinItems Pin) (now : ℚ) : Prop :=
  now < s.pinFailTime + 60 * 6 ^ (s.pinFailCount - 3)

/-- What every call keeps to. -/
structure AuthRecord.Sound (r : AuthRecord Pin) : Prop where
  /-- the lockout is what the wallet shows as disabled -/
  disabled : 3 ≤ r.before.pinFailCount →
    (r.before.walletIsDisabled r.ctx.now = true ↔ LockedUntil r.before r.ctx.now)
  /-- no pin is compared in it -/
  refused : 3 ≤ r.before.pinFailCount → LockedUntil r.before r.ctx.now → r.outcome = .lockedOut
  /-- the wallet is wiped at an unseen wrong pin with the count at 8 or more -/
  wipes : r.outcome = .rejected true ↔ r.outcome.rejects = true ∧
    r.pin ∉ r.before.failedPins ∧ 8 ≤ r.before.pinFailCount + 1
  /-- only the right pin is accepted, -/
  right : r.outcome.accepts = true → r.before.pin = some r.pin
  /-- it is not rejected, -/
  wrong : r.outcome.rejects = true → r.before.pin ≠ some r.pin
  /-- and outside of the lockout it is accepted and resets the counters -/
  accepts : r.before.pin = some r.pin →
    ¬ (3 ≤ r.before.pinFailCount ∧ LockedUntil r.before r.ctx.now) →
    r.outcome.accepts = true ∧ (Budgets r.before r.ctx → r.outcome = .accepted) ∧
      r.after.pinFailCount = 0 ∧ r.after.pinFailTime = 0

section Settle

variable (r : PinItems Pin × AuthOutcome)

@[simp] theorem settle_pinFailCount :
    (settle r).pinFailCount = r.1.pinFailCount := by
  rw [settle]
  split <;> rfl

@[simp] theorem settle_pinFailTime :
    (settle r).pinFailTime = r.1.pinFailTime := by
  rw [settle]
  split <;> rfl

theorem mem_settle_failedPins
    {pin : Pin}
    (h : pin ∈ (settle r).failedPins) :
    pin ∈ r.1.failedPins := by
  rw [settle] at h
  split at h
  · cases h
  · exact h

end Settle

section Log

variable (log : List (AuthRecord Pin)) {r : AuthRecord Pin}

theorem sinceAccepted_accepts
    (h : r.outcome.accepts = true) :
    sinceAccepted (log ++ [r]) = [] := by
  rw [sinceAccepted, List.rtakeWhile_concat_neg]
  simp [h]

theorem sinceAccepted_refuses
    (h : r.outcome.accepts = false) :
    sinceAccepted (log ++ [r]) = sinceAccepted log ++ [r] := by
  rw [sinceAccepted, List.rtakeWhile_concat_pos, sinceAccepted]
  simp [h]

theorem wrongPins_rejects
    [DecidableEq Pin]
    (h : r.outcome.rejects = true) :
    wrongPins (log ++ [r]) = insert r.pin (wrongPins log) := by
  ext pin
  simp [wrongPins, h]

theorem wrongPins_keeps
    [DecidableEq Pin]
    (h : r.outcome.rejects = false) :
    wrongPins (log ++ [r]) = wrongPins log := by
  simp [wrongPins, h]

theorem AuthOutcome.not_accepts_and_rejects
    (o : AuthOutcome)
    (haccepts : o.accepts = true)
    (hrejects : o.rejects = true) :
    False := by
  cases o with
  | lockedOut => cases haccepts
  | accepted => cases hrejects
  | rejected wipes => cases haccepts
  | trapped right =>
      have hfalse : (!right) = true := hrejects
      have htrue : right = true := haccepts
      rw [htrue] at hfalse
      cases hfalse

theorem AuthOutcome.accepts_of_rejects
    {o : AuthOutcome}
    (h : o.rejects = true) :
    o.accepts = false := by
  rw [← Bool.not_eq_true]
  exact fun haccepts => o.not_accepts_and_rejects haccepts h

end Log

section Step

variable {s : PinItems Pin}

theorem lockedOut_iff
    (now : ℚ) :
    s.LockedOut now ↔ 3 ≤ s.pinFailCount ∧ LockedUntil s now := by
  rw [PinItems.LockedOut, LockedUntil, mul_comm]

theorem walletIsDisabled_iff
    (now : ℚ)
    (hcount : 3 ≤ s.pinFailCount) :
    s.walletIsDisabled now = true ↔ LockedUntil s now := by
  rw [PinItems.walletIsDisabled, decide_eq_true_iff, PinItems.walletDisabledUntil, if_pos hcount,
    LockedUntil, mul_comm]

variable [DecidableEq Pin]

/-- **Step lemma** for a single call. -/
theorem sound_recordOf
    (s : PinItems Pin) (ctx : AuthContext) (pin : Pin) :
    (recordOf s ctx pin).Sound := by
  have hdisabled := walletIsDisabled_iff (s := s) ctx.now
  have hlockedOut := lockedOut_iff (s := s) ctx.now
  cases authenticate_cases s ctx pin with
  | locked hlocked heq =>
      refine ⟨hdisabled, ?_, ?_, ?_, ?_, ?_⟩ <;> dsimp only [recordOf] <;> rw [heq]
      · exact fun _ _ => rfl
      · simp [AuthOutcome.rejects]
      · exact fun haccepts => nomatch haccepts
      · exact fun hrejects => nomatch hrejects
      · exact fun _ hopen => absurd (hlockedOut.mp hlocked) hopen
  | right count hopen hpin heq =>
      obtain ⟨limit, hafter, haccepts, hbudgets⟩ :=
        authenticationSuccess_cases { s with pinFailCount := count } ctx
      refine ⟨hdisabled, ?_, ?_, fun _ => hpin, ?_, ?_⟩ <;> dsimp only [recordOf] <;> rw [heq]
      · exact fun hcount hlocked => absurd (hlockedOut.mpr ⟨hcount, hlocked⟩) hopen
      · constructor
        · intro hwipes
          rw [hwipes] at haccepts
          cases haccepts
        · exact fun h => (AuthOutcome.not_accepts_and_rejects _ haccepts h.1).elim
      · exact fun hrejects => (AuthOutcome.not_accepts_and_rejects _ haccepts hrejects).elim
      · intro _ _
        rw [settle_pinFailCount, settle_pinFailTime, hafter]
        exact ⟨haccepts, hbudgets.mpr, rfl, rfl⟩
  | seen hopen hpin hseen heq =>
      refine ⟨hdisabled, ?_, ?_, ?_, fun _ => hpin, fun hright => absurd hright hpin⟩ <;>
        dsimp only [recordOf] <;> rw [heq]
      · exact fun hcount hlocked => absurd (hlockedOut.mpr ⟨hcount, hlocked⟩) hopen
      · refine iff_of_false (by simp) ?_
        exact fun h => h.2.1 hseen
      · exact fun haccepts => nomatch haccepts
  | unseen hopen hpin hunseen heq =>
      obtain ⟨time, -, -, hrejects, hwipes⟩ :=
        uniqueFailure_cases { s with pinFailCount := s.pinFailCount + 1 } ctx pin
      refine ⟨hdisabled, ?_, ?_, ?_, fun _ => hpin, fun hright => absurd hright hpin⟩ <;>
        dsimp only [recordOf] <;> rw [heq]
      · exact fun hcount hlocked => absurd (hlockedOut.mpr ⟨hcount, hlocked⟩) hopen
      · rw [hwipes]
        exact ⟨fun hcount => ⟨hrejects, hunseen, hcount⟩, fun h => h.2.2⟩
      · exact fun haccepts => (AuthOutcome.not_accepts_and_rejects _ haccepts hrejects).elim

/-- What a run keeps of the items and its log. -/
structure Counts (s : PinItems Pin) (log : List (AuthRecord Pin)) : Prop where
  sound : ∀ r ∈ log, r.Sound
  failed : ∀ pin ∈ s.failedPins, pin ∈ wrongPins (sinceAccepted log)
  counted : (wrongPins (sinceAccepted log)).card ≤ s.pinFailCount
  grows : ∀ r ∈ sinceAccepted log,
    r.before.pinFailCount ≤ s.pinFailCount ∧ r.before.pinFailTime ≤ s.pinFailTime

theorem counts_relaunch
    (s : PinItems Pin) :
    Counts s.relaunch [] where
  sound := List.forall_mem_nil _
  failed := List.forall_mem_nil _
  counted := Nat.zero_le _
  grows := List.forall_mem_nil _

theorem Counts.authenticate
    {log : List (AuthRecord Pin)}
    (h : Counts s log)
    (ctx : AuthContext) (pin : Pin) :
    Counts (settle (s.authenticate ctx pin)) (log ++ [recordOf s ctx pin]) := by
  have hsound : ∀ r ∈ log ++ [recordOf s ctx pin], r.Sound := by
    intro r hr
    rcases List.mem_append.mp hr with hr | hr
    · exact h.sound r hr
    · rw [List.mem_singleton.mp hr]
      exact sound_recordOf s ctx pin
  -- a call that does not accept extends the calls since the last accepted pin
  have hgrows : s.pinFailCount ≤ (s.authenticate ctx pin).1.pinFailCount →
      s.pinFailTime ≤ (s.authenticate ctx pin).1.pinFailTime →
      ∀ r ∈ sinceAccepted log ++ [recordOf s ctx pin],
        r.before.pinFailCount ≤ (settle (s.authenticate ctx pin)).pinFailCount ∧
          r.before.pinFailTime ≤ (settle (s.authenticate ctx pin)).pinFailTime := by
    intro hcount htime r hr
    rw [settle_pinFailCount, settle_pinFailTime]
    rcases List.mem_append.mp hr with hr | hr
    · obtain ⟨hc, ht⟩ := h.grows r hr
      exact ⟨hc.trans hcount, ht.trans htime⟩
    · rw [List.mem_singleton.mp hr]
      exact ⟨hcount, htime⟩
  have houtcome : (recordOf s ctx pin).outcome = (s.authenticate ctx pin).2 := rfl
  -- a call that leaves the state as it is and finds no new wrong pin
  have hsame : ∀ outcome, s.authenticate ctx pin = (s, outcome) →
      sinceAccepted (log ++ [recordOf s ctx pin]) = sinceAccepted log ++ [recordOf s ctx pin] →
      wrongPins (sinceAccepted log ++ [recordOf s ctx pin]) = wrongPins (sinceAccepted log) →
      Counts (settle (s.authenticate ctx pin)) (log ++ [recordOf s ctx pin]) := by
    intro outcome heq hlog hpins
    rw [heq] at hgrows ⊢
    refine ⟨hsound, ?_, ?_, ?_⟩
    · intro p hp
      rw [hlog, hpins]
      exact h.failed p (mem_settle_failedPins _ hp)
    · rw [hlog, hpins, settle_pinFailCount]
      exact h.counted
    · rw [hlog]
      exact hgrows le_rfl le_rfl
  cases authenticate_cases s ctx pin with
  | locked hlocked heq =>
      have hlog : sinceAccepted (log ++ [recordOf s ctx pin]) = _ :=
        sinceAccepted_refuses log (by rw [houtcome, heq]; rfl)
      have hpins : wrongPins (sinceAccepted log ++ [recordOf s ctx pin]) = _ :=
        wrongPins_keeps _ (by rw [houtcome, heq]; rfl)
      exact hsame _ heq hlog hpins
  | right count hopen hpin heq =>
      obtain ⟨limit, hafter, haccepts, -⟩ :=
        authenticationSuccess_cases { s with pinFailCount := count } ctx
      have hlog : sinceAccepted (log ++ [recordOf s ctx pin]) = _ :=
        sinceAccepted_accepts log (by rw [houtcome, heq]; exact haccepts)
      refine ⟨hsound, ?_, ?_, ?_⟩
      · intro p hp
        have hmem := mem_settle_failedPins _ hp
        rw [heq, hafter] at hmem
        cases hmem
      · rw [hlog]
        exact Nat.zero_le _
      · rw [hlog]
        exact List.forall_mem_nil _
  | seen hopen hpin hseen heq =>
      have hlog : sinceAccepted (log ++ [recordOf s ctx pin]) = _ :=
        sinceAccepted_refuses log (by rw [houtcome, heq]; rfl)
      have hpins : wrongPins (sinceAccepted log ++ [recordOf s ctx pin]) =
          wrongPins (sinceAccepted log) := by
        rw [wrongPins_rejects _ (by rw [houtcome, heq]; rfl)]
        exact Finset.insert_eq_of_mem (h.failed pin hseen)
      exact hsame _ heq hlog hpins
  | unseen hopen hpin hunseen heq =>
      obtain ⟨time, htime, hafter, hrejects, -⟩ :=
        uniqueFailure_cases { s with pinFailCount := s.pinFailCount + 1 } ctx pin
      rw [← heq] at hafter hrejects
      have hlog : sinceAccepted (log ++ [recordOf s ctx pin]) = _ :=
        sinceAccepted_refuses log (AuthOutcome.accepts_of_rejects hrejects)
      have hpins : wrongPins (sinceAccepted log ++ [recordOf s ctx pin]) =
          insert pin (wrongPins (sinceAccepted log)) :=
        wrongPins_rejects _ hrejects
      refine ⟨hsound, ?_, ?_, ?_⟩
      · intro p hp
        have hmem := mem_settle_failedPins _ hp
        rw [hafter] at hmem
        rw [hlog, hpins, Finset.mem_insert]
        rcases List.mem_append.mp hmem with hmem | hmem
        · exact .inr (h.failed p hmem)
        · exact .inl (List.mem_singleton.mp hmem)
      · rw [hlog, hpins, settle_pinFailCount, hafter]
        exact (Finset.card_insert_le _ _).trans (Nat.succ_le_succ h.counted)
      · rw [hlog]
        exact hgrows (by rw [hafter]; exact Nat.le_succ _) (by rw [hafter]; exact htime)

theorem Counts.step
    {s' : PinItems Pin} {event : PinEvent Pin} {log o : List (AuthRecord Pin)}
    (h : Counts s log)
    (hstep : pinStep s event = .ok (s', o)) :
    Counts s' (log ++ o) := by
  cases event with
  | authenticate ctx pin =>
      cases hstep
      exact h.authenticate ctx pin
  | restart =>
      cases hstep
      rw [List.append_nil]
      exact ⟨h.sound, List.forall_mem_nil _, h.counted, h.grows⟩

end Step

/-- **PIN lockout**: in every run from the start of a process each call keeps to the
lockout, and since the last accepted pin the count bounds the distinct wrong pins
and neither the count nor the time of the last failure has decreased. -/
theorem run_locksOut
    [DecidableEq Pin]
    {s s' : PinItems Pin} {events : List (PinEvent Pin)} {log : List (AuthRecord Pin)}
    (hrun : Machine.run pinStep s.relaunch events = .ok (s', log)) :
    (∀ r ∈ log, r.Sound) ∧
    (wrongPins (sinceAccepted log)).card ≤ s'.pinFailCount ∧
    ∀ r ∈ sinceAccepted log,
      r.before.pinFailCount ≤ s'.pinFailCount ∧ r.before.pinFailTime ≤ s'.pinFailTime := by
  have hguard : Machine.Guarded pinStep (fun _ _ => True) s.relaunch events :=
    Machine.guarded_of_forall (fun _ _ => trivial) events _
  have hcounts : Counts s' ([] ++ log) :=
    Machine.run_invariant (fun s log event s' o h _ hstep => h.step hstep)
      (counts_relaunch s) hguard hrun
  exact ⟨hcounts.sound, hcounts.counted, hcounts.grows⟩

/-- A wrong pin, tried again after a restart with an earlier clock, and another one. -/
def guesses : List (PinEvent ℕ) :=
  [.authenticate { now := 100 } 1, .restart, .authenticate { now := 50 } 1,
    .authenticate { now := 50 } 2]

theorem run_locksOut_guesses :
    ∃ s' log,
      Machine.run pinStep (PinItems.relaunch { pin := some 1234 }) guesses = .ok (s', log) ∧
      s'.pinFailCount = 3 ∧ s'.pinFailTime = 100 ∧
      (wrongPins (sinceAccepted log)).card ≤ s'.pinFailCount :=
  ⟨_, _, rfl, rfl, rfl, (@run_locksOut ℕ _ { pin := some 1234 } _ guesses _ rfl).2.1⟩

end BreadwalletCore
