import BreadwalletCore.WalletManager.Lockout
import BreadwalletCore.Wallet.Accounting
import BreadwalletCore.Wallet.Operations

/-!
# The spending limit of biometric signatures

`canUseBiometrics(forTx:)` and `signTransaction(_:forkId:biometricsPrompt:)` of
`WalletManager+Auth.swift`.  Their guard compares the wallet's `totalSent` with
the item that the last pin authentication wrote.  Between the guard and the
signature the dialog is open and anything else may run.

A wallet is open throughout, and the limit itself is not set anew.
-/

namespace BreadwalletCore

namespace BRWallet

/-- `BRWalletAmountReceivedFromTx`. -/
def amountReceivedFromTx (w : BRWallet) (tx : BRTransaction) : UInt64 :=
  (tx.outputs.map (fun o => if o.address ∈ w.allAddrs then o.amount else 0)).sum

/-- What a transaction takes out of the wallet, the fee included. -/
def netAmount (w : BRWallet) (tx : BRTransaction) : ℕ :=
  (w.amountSentByTx tx).toNat - (w.amountReceivedFromTx tx).toNat

/-- The guard of both functions; it is `none` where the difference, the sum or the
conversion of the limit traps. -/
def withinLimit (w : BRWallet) (spendLimit : ℤ) (tx : BRTransaction) : Option Bool :=
  if w.amountReceivedFromTx tx ≤ w.amountSentByTx tx then
    if w.netAmount tx + w.totalSent.toNat < 2 ^ 64 then
      if 0 ≤ spendLimit then
        some (decide (w.netAmount tx + w.totalSent.toNat ≤ spendLimit))
      else none
    else none
  else none

/-- `hardware` is `LAContext.canUseBiometrics`. -/
def canUseBiometrics (hardware : Bool) (w : BRWallet) (spendLimit : ℤ) (tx : BRTransaction) :
    Option Bool :=
  if hardware then w.withinLimit spendLimit tx else some false

theorem withinLimit_isSome_iff
    (w : BRWallet) (spendLimit : ℤ) (tx : BRTransaction) :
    (w.withinLimit spendLimit tx).isSome = true ↔
      w.amountReceivedFromTx tx ≤ w.amountSentByTx tx ∧
      w.netAmount tx + w.totalSent.toNat < 2 ^ 64 ∧ 0 ≤ spendLimit := by
  rw [withinLimit]
  split
  · rename_i hreceived
    split
    · rename_i hsum
      split
      · rename_i hlimit
        exact iff_of_true rfl ⟨hreceived, hsum, hlimit⟩
      · rename_i hlimit
        exact iff_of_false Bool.false_ne_true (fun h => hlimit h.2.2)
    · rename_i hsum
      exact iff_of_false Bool.false_ne_true (fun h => hsum h.2.1)
  · rename_i hreceived
    exact iff_of_false Bool.false_ne_true (fun h => hreceived h.1)

theorem canUseBiometrics_isSome_iff
    (hardware : Bool) (w : BRWallet) (spendLimit : ℤ) (tx : BRTransaction) :
    (canUseBiometrics hardware w spendLimit tx).isSome = true ↔
      hardware = false ∨ (w.withinLimit spendLimit tx).isSome = true := by
  cases hardware with
  | false =>
      exact iff_of_true rfl (.inl rfl)
  | true =>
      exact ⟨.inr, fun h => h.resolve_left Bool.noConfusion⟩

/-- What a passed guard says. -/
theorem le_of_withinLimit
    {w : BRWallet} {spendLimit : ℤ} {tx : BRTransaction}
    (h : w.withinLimit spendLimit tx = some true) :
    (w.netAmount tx + w.totalSent.toNat : ℤ) ≤ spendLimit := by
  rw [withinLimit] at h
  split at h
  · split at h
    · split at h
      · exact of_decide_eq_true (Option.some.inj h)
      · cases h
    · cases h
  · cases h

end BRWallet

inductive BiometricsResult where
  | success
  | cancel
  | fallback
  | failure
deriving DecidableEq

/-- An open dialog: the transaction with its net amount, and what the guard saw. -/
structure BiometricsPrompt where
  tx : BRTransaction
  net : ℕ
  totalSent : ℕ
  spendLimit : ℤ

/-- The manager with its wallet.  `spent` is no field of the code: it sums up what
was signed with biometrics since the last pin authentication. -/
structure SpendingState (Pin : Type) where
  wallet : BRWallet
  items : PinItems Pin
  prompts : List BiometricsPrompt := []
  spent : ℕ := 0

inductive SpendingEvent (Pin : Type) where
  | authenticate (now : ℚ) (pin : Pin)
  /-- `signTransaction` with biometrics, up to the dialog -/
  | sign (tx : BRTransaction)
  /-- the answer of a dialog; `signs` is what `signTx` returns -/
  | reply (k : ℕ) (result : BiometricsResult) (signs : Bool)
  | update (call : Call)

inductive SpendingOutput where
  | authenticated
  | notAuthenticated
  | signed (tx : BRTransaction) (net : ℕ)
  | completed (result : BiometricsResult)
  | trapped

namespace SpendingState

variable {Pin : Type}

/-- The process ends and starts again. -/
def crash (s : SpendingState Pin) : SpendingState Pin :=
  { s with items := s.items.relaunch, prompts := [] }

/-- The dialog behind a guard that has been passed. -/
def promptFor (s : SpendingState Pin) (tx : BRTransaction) : BiometricsPrompt where
  tx := tx
  net := s.wallet.netAmount tx
  totalSent := s.wallet.totalSent.toNat
  spendLimit := s.items.spendLimit

/-- `signTransaction` with biometrics. -/
def sign (s : SpendingState Pin) (tx : BRTransaction) :
    SpendingState Pin × List SpendingOutput :=
  match s.wallet.withinLimit s.items.spendLimit tx with
  | none => (s.crash, [.trapped])
  | some false => (s, [.completed .failure])
  | some true => ({ s with prompts := s.prompts ++ [s.promptFor tx] }, [])

/-- The closure behind the dialog. -/
def answer (s : SpendingState Pin) (prompt : BiometricsPrompt) (signs : Bool) :
    BiometricsResult → SpendingState Pin × List SpendingOutput
  | .success =>
      if signs then ({ s with spent := s.spent + prompt.net }, [.signed prompt.tx prompt.net])
      else (s, [.completed .failure])
  | result => (s, [.completed result])

/-- `authenticate(pin:)` with the open wallet. -/
def authenticate [DecidableEq Pin] (s : SpendingState Pin) (now : ℚ) (pin : Pin) :
    SpendingState Pin × List SpendingOutput :=
  let r := s.items.authenticate { now := now, totalSent := some s.wallet.totalSent } pin
  let s' := { s with items := r.1 }
  if r.2 = .accepted then ({ s' with spent := 0 }, [.authenticated])
  else if r.2.isTrapped then (s'.crash, [.trapped])
  else (s', [.notAuthenticated])

def step [DecidableEq Pin] (fuel : ℕ) (s : SpendingState Pin) :
    SpendingEvent Pin → Except Fault (SpendingState Pin × List SpendingOutput)
  | .authenticate now pin => .ok (s.authenticate now pin)
  | .sign tx => .ok (s.sign tx)
  | .reply k result signs =>
      match s.prompts[k]? with
      | some prompt => .ok ({ s with prompts := s.prompts.eraseIdx k }.answer prompt signs result)
      | none => .ok (s, [])
  | .update call =>
      match BreadwalletCore.step fuel s.wallet call with
      | .ok r => .ok ({ s with wallet := r.1 }, [])
      | .error fault => .error fault

/-- The start of a run. -/
def launch (wallet : BRWallet) (items : PinItems Pin) : SpendingState Pin :=
  { wallet := wallet, items := items }

/-- What an output adds to the sum signed since the last pin authentication. -/
def spend (sum : ℕ) : SpendingOutput → ℕ
  | .authenticated => 0
  | .signed _ net => sum + net
  | _ => sum

/-- The sum of the net amounts signed since the last pin authentication. -/
def spentSince (log : List SpendingOutput) : ℕ :=
  log.foldl spend 0

/-- A signature is covered if the budget that its guard saw left no more than the
limit less what has been signed already. -/
def Covered (s : SpendingState Pin) : SpendingEvent Pin → Prop
  | .reply k .success true => ∀ prompt, s.prompts[k]? = some prompt →
      (s.spent + prompt.spendLimit : ℤ) ≤ prompt.totalSent + s.items.spendLimitAmount.val
  | _ => True

section Run

variable {s s' : SpendingState Pin}

theorem authenticate_spendLimitAmount
    [DecidableEq Pin]
    (items : PinItems Pin) (ctx : AuthContext) (pin : Pin) :
    (items.authenticate ctx pin).1.spendLimitAmount = items.spendLimitAmount := by
  cases authenticate_cases items ctx pin with
  | locked hlocked heq =>
      rw [heq]
  | right count hopen hpin heq =>
      obtain ⟨limit, hafter, -⟩ :=
        authenticationSuccess_cases { items with pinFailCount := count } ctx
      rw [heq, hafter]
      rfl
  | seen hopen hpin hseen heq =>
      rw [heq]
  | unseen hopen hpin hunseen heq =>
      obtain ⟨time, -, hafter, -⟩ :=
        uniqueFailure_cases { items with pinFailCount := items.pinFailCount + 1 } ctx pin
      rw [heq, hafter]

/-- Every open dialog has passed its guard, and what has been signed is within the
limit. -/
structure WithinBudget (s : SpendingState Pin) (log : List SpendingOutput) : Prop where
  prompts : ∀ prompt ∈ s.prompts,
    (prompt.net + prompt.totalSent : ℤ) ≤ prompt.spendLimit
  spent : s.spent = spentSince log
  within : s.spent ≤ s.items.spendLimitAmount.val

variable {log : List SpendingOutput}

theorem spentSince_append
    (log o : List SpendingOutput) :
    spentSince (log ++ o) = o.foldl spend (spentSince log) := by
  rw [spentSince, List.foldl_append]
  rfl

theorem WithinBudget.crash
    (h : WithinBudget s log) :
    WithinBudget s.crash (log ++ [.trapped]) where
  prompts := List.forall_mem_nil _
  spent := by
    rw [spentSince_append, ← h.spent]
    rfl
  within := h.within

theorem WithinBudget.authenticate
    [DecidableEq Pin]
    (h : WithinBudget s log)
    (now : ℚ) (pin : Pin) :
    WithinBudget (s.authenticate now pin).1 (log ++ (s.authenticate now pin).2) := by
  have hlimit := authenticate_spendLimitAmount s.items
    { now := now, totalSent := some s.wallet.totalSent } pin
  rw [SpendingState.authenticate]
  dsimp only
  split
  · exact ⟨h.prompts, by rw [spentSince_append]; rfl, Nat.zero_le _⟩
  · have hafter : WithinBudget { s with items := (s.items.authenticate
        { now := now, totalSent := some s.wallet.totalSent } pin).1 } log :=
      ⟨h.prompts, h.spent, by dsimp only; rw [hlimit]; exact h.within⟩
    split
    · exact hafter.crash
    · exact ⟨hafter.prompts, by rw [spentSince_append, ← h.spent]; rfl, hafter.within⟩

theorem WithinBudget.sign
    (h : WithinBudget s log)
    (tx : BRTransaction) :
    WithinBudget (s.sign tx).1 (log ++ (s.sign tx).2) := by
  rw [SpendingState.sign]
  split
  · exact h.crash
  · exact ⟨h.prompts, by rw [spentSince_append, ← h.spent]; rfl, h.within⟩
  · rename_i hpasses
    refine ⟨?_, by rw [spentSince_append, ← h.spent]; rfl, h.within⟩
    intro prompt hprompt
    rcases List.mem_append.mp hprompt with hprompt | hprompt
    · exact h.prompts prompt hprompt
    · rw [List.mem_singleton.mp hprompt]
      exact BRWallet.le_of_withinLimit hpasses

theorem WithinBudget.answer
    {prompt : BiometricsPrompt} {result : BiometricsResult} {signs : Bool}
    (h : WithinBudget s log)
    (hguard : (prompt.net + prompt.totalSent : ℤ) ≤ prompt.spendLimit)
    (hcovered : result = .success → signs = true →
      (s.spent + prompt.spendLimit : ℤ) ≤ prompt.totalSent + s.items.spendLimitAmount.val) :
    WithinBudget (s.answer prompt signs result).1 (log ++ (s.answer prompt signs result).2) := by
  have hquiet : ∀ r, WithinBudget s (log ++ [.completed r]) := by
    intro r
    exact ⟨h.prompts, by rw [spentSince_append, ← h.spent]; rfl, h.within⟩
  cases result with
  | success =>
      rw [SpendingState.answer]
      split
      · rename_i hsigns
        have hroom := hcovered rfl hsigns
        refine ⟨h.prompts, by rw [spentSince_append, ← h.spent]; rfl, ?_⟩
        -- the guard bounds the amount by what the budget left
        dsimp only
        omega
      · exact hquiet .failure
  | cancel => exact hquiet .cancel
  | fallback => exact hquiet .fallback
  | failure => exact hquiet .failure

/-- **Step lemma**: a covered step keeps the signed sum within the limit. -/
theorem WithinBudget.step
    [DecidableEq Pin]
    {fuel : ℕ} {event : SpendingEvent Pin} {o : List SpendingOutput}
    (h : WithinBudget s log)
    (hcovered : s.Covered event)
    (hstep : s.step fuel event = .ok (s', o)) :
    WithinBudget s' (log ++ o) := by
  cases event with
  | authenticate now pin =>
      have heq : s.authenticate now pin = (s', o) := Except.ok.inj hstep
      have hkept := h.authenticate now pin
      rwa [heq] at hkept
  | sign tx =>
      have heq : s.sign tx = (s', o) := Except.ok.inj hstep
      have hkept := h.sign tx
      rwa [heq] at hkept
  | reply k result signs =>
      rw [SpendingState.step] at hstep
      split at hstep
      · rename_i prompt hprompt
        have heq : { s with prompts := s.prompts.eraseIdx k }.answer prompt signs result =
            (s', o) := Except.ok.inj hstep
        have herased : WithinBudget { s with prompts := s.prompts.eraseIdx k } log :=
          ⟨fun p hp => h.prompts p (List.mem_of_mem_eraseIdx hp), h.spent, h.within⟩
        have hroom : result = .success → signs = true → (s.spent + prompt.spendLimit : ℤ) ≤
            prompt.totalSent + s.items.spendLimitAmount.val := by
          rintro rfl rfl
          exact hcovered prompt hprompt
        have hkept := herased.answer (h.prompts prompt (List.mem_of_getElem? hprompt)) hroom
        rwa [heq] at hkept
      · cases hstep
        rwa [List.append_nil]
  | update call =>
      rw [SpendingState.step] at hstep
      split at hstep
      · cases hstep
        rw [List.append_nil]
        exact ⟨h.prompts, h.spent, h.within⟩
      · cases hstep

end Run

end SpendingState

open SpendingState

/-- **Biometric spending limit**: in every run whose signatures are covered, what is
signed with biometrics after a pin authentication stays within the limit; and the
guards evaluate without a trap exactly where the wallet receives no more than it
sends, the sum fits 64 bits and the item is not negative. -/
theorem biometrics_withinLimit
    {Pin : Type} [DecidableEq Pin] {fuel : ℕ} {wallet : BRWallet} {items : PinItems Pin}
    {s' : SpendingState Pin} {events : List (SpendingEvent Pin)} {log : List SpendingOutput}
    (hcovered : Machine.Guarded (SpendingState.step fuel) Covered (launch wallet items) events)
    (hrun : Machine.run (SpendingState.step fuel) (launch wallet items) events = .ok (s', log)) :
    spentSince log ≤ s'.items.spendLimitAmount.val ∧
    ∀ (w : BRWallet) (spendLimit : ℤ) (tx : BRTransaction),
      ((w.withinLimit spendLimit tx).isSome = true ↔
        w.amountReceivedFromTx tx ≤ w.amountSentByTx tx ∧
          w.netAmount tx + w.totalSent.toNat < 2 ^ 64 ∧ 0 ≤ spendLimit) ∧
      ∀ hardware, (BRWallet.canUseBiometrics hardware w spendLimit tx).isSome = true ↔
        hardware = false ∨ (w.withinLimit spendLimit tx).isSome = true := by
  have hstart : WithinBudget (launch wallet items) [] :=
    ⟨List.forall_mem_nil _, rfl, Nat.zero_le _⟩
  have hbudget := Machine.run_invariant (fun _ _ _ _ _ h hok hstep => h.step hok hstep)
    hstart hcovered hrun
  rw [List.nil_append] at hbudget
  refine ⟨hbudget.spent ▸ hbudget.within, fun w spendLimit tx => ⟨?_, fun hardware => ?_⟩⟩
  · exact w.withinLimit_isSome_iff spendLimit tx
  · exact BRWallet.canUseBiometrics_isSome_iff hardware w spendLimit tx

/-- Two coins, a limit of one coin, and no registration between two signatures. -/
def twoCoins : BRWallet where
  feePerKb := 50000
  masterPubKey := sampleKey
  allAddrs := {[1, 0]}
  transactions := [sampleTx 1 [⟨99, 0⟩] [1, 0] 10 100, sampleTx 2 [⟨98, 0⟩] [1, 0] 10 100]
  allTx := [sampleTx 1 [⟨99, 0⟩] [1, 0] 10 100, sampleTx 2 [⟨98, 0⟩] [1, 0] 10 100]
  balance := 20
  totalReceived := 20
  balanceHist := [10, 20]
  utxos := [⟨1, 0⟩, ⟨2, 0⟩]

/-- A pin authentication and a signature for each coin. -/
def twoSignatures : List (SpendingEvent ℕ) :=
  [.authenticate 0 1234, .sign (sampleTx 3 [⟨1, 0⟩] [9] 9 100), .reply 0 .success true,
    .sign (sampleTx 4 [⟨2, 0⟩] [9] 9 100), .reply 0 .success true]

/-- The second signature exceeds the limit, and a payment to the wallet traps. -/
theorem not_biometrics_withinLimit :
    (∃ s' log, Machine.run (SpendingState.step 0)
        (launch twoCoins { pin := some 1234, spendLimitAmount := 10 }) twoSignatures =
          .ok (s', log) ∧
      ¬ spentSince log ≤ s'.items.spendLimitAmount.val) ∧
    twoCoins.withinLimit 10 (sampleTx 1 [⟨99, 0⟩] [1, 0] 10 100) = none :=
  ⟨⟨_, _, rfl, by decide⟩, by decide⟩

/-- The first signature alone is covered. -/
theorem biometrics_withinLimit_first :
    ∃ s' log, Machine.run (SpendingState.step 0)
        (launch twoCoins { pin := some 1234, spendLimitAmount := 10 }) (twoSignatures.take 3) =
          .ok (s', log) ∧
      log.length = 2 ∧ spentSince log ≤ s'.items.spendLimitAmount.val := by
  have hroom : Machine.Guarded (SpendingState.step 0) Covered
      (launch twoCoins { pin := some 1234, spendLimitAmount := 10 }) (twoSignatures.take 3) := by
    refine Machine.guarded_cons trivial rfl (Machine.guarded_cons trivial rfl
      (Machine.guarded_cons ?_ rfl trivial))
    intro prompt hprompt
    cases hprompt
    decide
  exact ⟨_, _, rfl, rfl, (biometrics_withinLimit hroom rfl).1⟩

end BreadwalletCore
