import BreadwalletCore.Data.Machine
import Mathlib.Data.Rat.Floor
import Mathlib.Tactic

/-!
# Authentication with the pin

`authenticate(pin:)` and `authenticationSuccess` of `WalletManager+Auth.swift`.
The state is what the keychain, the user defaults and the memory of the process
hold; all keychain operations succeed.

* The clock is an exact rational, in seconds since 1970.
* Pins are values of a type with equality, since strings are compared up to
  canonical equivalence.
* A conversion to `Int64` that does not fit traps and ends the process.
-/

namespace BreadwalletCore

variable {Pin : Type}

/-- The items behind the authentication.  `spendLimitAmount` is the limit that the
setter `spendingLimit` stored, which `Int64` can read back. -/
structure PinItems (Pin : Type) where
  pin : Option Pin
  pinFailCount : ℕ := 0
  pinFailTime : ℤ := 0
  spendLimit : ℤ := 0
  spendLimitAmount : Fin (2 ^ 63) := 0
  failedPins : List Pin := []
deriving DecidableEq

/-- What a call meets: the clock, and `totalSent` of the wallet if one is open. -/
structure AuthContext where
  now : ℚ
  totalSent : Option UInt64 := none

/-- How a call ends.  It returns `true` if it is `accepted`, traps if it is
`trapped`, and else returns `false`. -/
inductive AuthOutcome where
  /-- refused without a look at the pin -/
  | lockedOut
  | accepted
  /-- compared and wrong; `wipes` triggers `wipeWalletNoPrompt` -/
  | rejected (wipes : Bool)
  /-- `accepted` tells on which side of the comparison it trapped -/
  | trapped (accepted : Bool)
deriving DecidableEq

namespace AuthOutcome

/-- The pin was compared and right. -/
def accepts : AuthOutcome → Bool
  | .accepted => true
  | .trapped right => right
  | _ => false

/-- The pin was compared and wrong. -/
def rejects : AuthOutcome → Bool
  | .rejected _ => true
  | .trapped right => !right
  | _ => false

/-- The process ended. -/
def isTrapped : AuthOutcome → Bool
  | .trapped _ => true
  | _ => false

end AuthOutcome

def roundTowardZero (t : ℚ) : ℤ :=
  if 0 ≤ t then ⌊t⌋ else ⌈t⌉

/-- The conversion of a `Double` to `Int64`. -/
def int64OfDouble (t : ℚ) : Option ℤ :=
  if -2 ^ 63 ≤ roundTowardZero t ∧ roundTowardZero t < 2 ^ 63 then some (roundTowardZero t)
  else none

namespace PinItems

variable (s : PinItems Pin)

/-- After 3 or more failed pin attempts, authentication is disabled until this time. -/
def walletDisabledUntil : ℚ :=
  if s.pinFailCount ≥ 3 then s.pinFailTime + 6 ^ (s.pinFailCount - 3) * 60 else 0

def walletIsDisabled (now : ℚ) : Bool :=
  decide (s.walletDisabledUntil > now)

/-- The check in front of the comparison. -/
def LockedOut (now : ℚ) : Prop :=
  s.pinFailCount ≥ 3 ∧ now < s.pinFailTime + 6 ^ (s.pinFailCount - 3) * 60

instance (now : ℚ) : Decidable (s.LockedOut now) :=
  inferInstanceAs (Decidable (_ ∧ _))

/-- The reset that `authenticationSuccess` begins with. -/
def reset : PinItems Pin :=
  { s with failedPins := [], pinFailTime := 0, pinFailCount := 0 }

def authenticationSuccess (ctx : AuthContext) : PinItems Pin × AuthOutcome :=
  match ctx.totalSent with
  | some totalSent =>
      if s.spendLimitAmount > 0 then
        -- both the conversion and the sum trap above `Int64`
        if totalSent.toNat + s.spendLimitAmount.val < 2 ^ 63 then
          ({ s.reset with spendLimit := totalSent.toNat + s.spendLimitAmount.val }, .accepted)
        else
          (s.reset, .trapped true)
      else
        (s.reset, .accepted)
  | none => (s.reset, .accepted)

/-- A wrong pin that was not tried before: `s` counts it already. -/
def uniqueFailure (ctx : AuthContext) (pin : Pin) : PinItems Pin × AuthOutcome :=
  let s := { s with failedPins := s.failedPins ++ [pin] }
  if s.pinFailCount ≥ 8 then
    (s, .rejected true)
  else if ctx.now > s.pinFailTime then
    match int64OfDouble ctx.now with
    | some time => ({ s with pinFailTime := time }, .rejected false)
    | none => (s, .trapped false)
  else
    (s, .rejected false)

variable [DecidableEq Pin]

/-- The pin is compared; a new one has been counted before. -/
def authenticate (ctx : AuthContext) (pin : Pin) : PinItems Pin × AuthOutcome :=
  if s.LockedOut ctx.now then
    (s, .lockedOut)
  else if pin ∈ s.failedPins then
    if s.pin = some pin then s.authenticationSuccess ctx else (s, .rejected false)
  else
    let s := { s with pinFailCount := s.pinFailCount + 1 }
    if s.pin = some pin then s.authenticationSuccess ctx else s.uniqueFailure ctx pin

/-- A new process forgets the failed pins. -/
def relaunch (s : PinItems Pin) : PinItems Pin :=
  { s with failedPins := [] }

end PinItems

/-! ## What a call does -/

section Spec

open PinItems

theorem le_roundTowardZero
    {t : ℚ} {m : ℤ}
    (hm : (m : ℚ) < t) :
    m ≤ roundTowardZero t := by
  rw [roundTowardZero]
  split
  · exact Int.le_floor.mpr hm.le
  · have hceil : (m : ℚ) ≤ ⌈t⌉ := hm.le.trans (Int.le_ceil t)
    exact_mod_cast hceil

theorem le_int64OfDouble
    {t : ℚ} {m n : ℤ}
    (hm : (m : ℚ) < t)
    (hn : int64OfDouble t = some n) :
    m ≤ n := by
  rw [int64OfDouble] at hn
  split at hn
  · cases hn
    exact le_roundTowardZero hm
  · cases hn

variable {s : PinItems Pin}

/-- The budget written at a success fits its keychain item. -/
def Budgets (s : PinItems Pin) (ctx : AuthContext) : Prop :=
  ∀ totalSent, ctx.totalSent = some totalSent → 0 < s.spendLimitAmount →
    totalSent.toNat + s.spendLimitAmount.val < 2 ^ 63

theorem authenticationSuccess_cases
    (s : PinItems Pin) (ctx : AuthContext) :
    ∃ limit,
      (s.authenticationSuccess ctx).1 = { s.reset with spendLimit := limit } ∧
      (s.authenticationSuccess ctx).2.accepts = true ∧
      ((s.authenticationSuccess ctx).2 = .accepted ↔ Budgets s ctx) := by
  rw [authenticationSuccess]
  split
  · rename_i totalSent htotal
    split
    · rename_i hpos
      split
      · rename_i hfits
        refine ⟨_, rfl, rfl, iff_of_true rfl ?_⟩
        intro total htotal' _
        rw [htotal] at htotal'
        cases htotal'
        exact hfits
      · rename_i hfits
        refine ⟨s.spendLimit, rfl, rfl, iff_of_false AuthOutcome.noConfusion ?_⟩
        intro hbudgets
        exact hfits (hbudgets totalSent htotal hpos)
    · rename_i hzero
      exact ⟨s.spendLimit, rfl, rfl, iff_of_true rfl (fun _ _ hpos => absurd hpos hzero)⟩
  · rename_i hnone
    refine ⟨s.spendLimit, rfl, rfl, iff_of_true rfl ?_⟩
    intro total htotal
    rw [hnone] at htotal
    cases htotal

theorem uniqueFailure_cases
    (s : PinItems Pin) (ctx : AuthContext) (pin : Pin) :
    ∃ time, s.pinFailTime ≤ time ∧
      (s.uniqueFailure ctx pin).1 =
        { s with failedPins := s.failedPins ++ [pin], pinFailTime := time } ∧
      (s.uniqueFailure ctx pin).2.rejects = true ∧
      ((s.uniqueFailure ctx pin).2 = .rejected true ↔ 8 ≤ s.pinFailCount) := by
  rw [uniqueFailure]
  dsimp only
  split
  · rename_i hwipes
    exact ⟨s.pinFailTime, le_rfl, rfl, rfl, iff_of_true rfl hwipes⟩
  · rename_i hkeeps
    split
    · rename_i hlater
      split
      · rename_i time htime
        exact ⟨time, le_int64OfDouble hlater htime, rfl, rfl, iff_of_false (by simp) hkeeps⟩
      · exact ⟨s.pinFailTime, le_rfl, rfl, rfl, iff_of_false (by simp) hkeeps⟩
    · exact ⟨s.pinFailTime, le_rfl, rfl, rfl, iff_of_false (by simp) hkeeps⟩

variable [DecidableEq Pin]

/-- The cases of a call. -/
inductive AuthCase (s : PinItems Pin) (ctx : AuthContext) (pin : Pin) : Prop
  /-- locked out: nothing happens -/
  | locked
      (hlocked : s.LockedOut ctx.now)
      (heq : s.authenticate ctx pin = (s, .lockedOut))
  /-- the right pin -/
  | right (count : ℕ)
      (hopen : ¬ s.LockedOut ctx.now)
      (hpin : s.pin = some pin)
      (heq : s.authenticate ctx pin =
        { s with pinFailCount := count }.authenticationSuccess ctx)
  /-- a wrong pin that was counted before -/
  | seen
      (hopen : ¬ s.LockedOut ctx.now)
      (hpin : s.pin ≠ some pin)
      (hseen : pin ∈ s.failedPins)
      (heq : s.authenticate ctx pin = (s, .rejected false))
  /-- a wrong pin that is counted -/
  | unseen
      (hopen : ¬ s.LockedOut ctx.now)
      (hpin : s.pin ≠ some pin)
      (hunseen : pin ∉ s.failedPins)
      (heq : s.authenticate ctx pin =
        { s with pinFailCount := s.pinFailCount + 1 }.uniqueFailure ctx pin)

theorem authenticate_cases
    (s : PinItems Pin) (ctx : AuthContext) (pin : Pin) :
    AuthCase s ctx pin := by
  by_cases hlocked : s.LockedOut ctx.now
  · exact .locked hlocked (by rw [authenticate, if_pos hlocked])
  · by_cases hseen : pin ∈ s.failedPins
    · by_cases hpin : s.pin = some pin
      · exact .right s.pinFailCount hlocked hpin
          (by rw [authenticate, if_neg hlocked, if_pos hseen, if_pos hpin])
      · exact .seen hlocked hpin hseen
          (by rw [authenticate, if_neg hlocked, if_pos hseen, if_neg hpin])
    · by_cases hpin : s.pin = some pin
      · refine .right (s.pinFailCount + 1) hlocked hpin ?_
        rw [authenticate, if_neg hlocked, if_neg hseen]
        exact if_pos hpin
      · refine .unseen hlocked hpin hseen ?_
        rw [authenticate, if_neg hlocked, if_neg hseen]
        exact if_neg hpin

end Spec

end BreadwalletCore
