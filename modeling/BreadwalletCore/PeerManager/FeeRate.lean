import BreadwalletCore.Data.RunnerUp
import BreadwalletCore.PeerManager.Start

/-!
# The fee rate that peers ask for

`_BRPeerAcceptFeeFilterMessage` and `_peerSetFeePerKb`.  The loop of the latter
looks for the second highest rate of the connected peers, and keeps the rate
that the highest one replaced.
-/

namespace BreadwalletCore

/-- `MAX_FEE_PER_KB`. -/
def maxFeePerKb : UInt64 := (1000100 * 1000 + 190) / 191

/-- `BRWalletSetFeePerKb`. -/
def BRWallet.setFeePerKb (w : BRWallet) (feePerKb : UInt64) : BRWallet :=
  { w with feePerKb := feePerKb }

/-- The manager, and what `BRPeerFeePerKb` returns for its peers. -/
structure FeeState where
  manager : BRPeerManager
  feePerKb : BRPeer → UInt64

/-- A feefilter message. -/
structure FeeFilter where
  peer : BRPeer
  msg : List UInt8
  /-- what the callback reads besides the manager -/
  env : Env

/-- The loop of `_peerSetFeePerKb`, with `maxFeePerKb` and `secondFeePerKb`. -/
def feeLoop (env : Env) (feePerKb : BRPeer → UInt64) :
    List BRPeer → UInt64 × UInt64 → UInt64 × UInt64
  | [], s => s
  | p :: ps, s =>
      if env.status p ≠ .connected then feeLoop env feePerKb ps s
      else if feePerKb p > s.1 then feeLoop env feePerKb ps (feePerKb p, s.1)
      else feeLoop env feePerKb ps s

namespace FeeState

/-- `secondFeePerKb` behind the loop. -/
def secondFeePerKb (env : Env) (s : FeeState) : UInt64 :=
  (feeLoop env s.feePerKb s.manager.connectedPeers.reverse (0, 0)).2

/-- `_peerSetFeePerKb`. -/
def peerSetFeePerKb (env : Env) (s : FeeState) : FeeState :=
  let second := s.secondFeePerKb env
  if second * 3 / 2 > defaultFeePerKb ∧ second * 3 / 2 ≤ maxFeePerKb ∧
      second * 3 / 2 > s.manager.wallet.feePerKb then
    { s with manager :=
        { s.manager with wallet := s.manager.wallet.setFeePerKb (second * 3 / 2) } }
  else s

/-- `_BRPeerAcceptFeeFilterMessage`: the state afterwards, and the result. -/
def acceptFeeFilter (s : FeeState) (m : FeeFilter) : FeeState × Bool :=
  if 8 > m.msg.length then (s, false)
  else
    let feePerKb := UInt64.ofNat (LittleEndian.value (m.msg.take 8))
    (peerSetFeePerKb m.env { s with feePerKb := Function.update s.feePerKb m.peer feePerKb }, true)

/-- A sequence of messages. -/
def acceptAll (s : FeeState) (messages : List FeeFilter) : FeeState :=
  messages.foldl (fun s m => (s.acceptFeeFilter m).1) s

/-- The rates of the connected peers, in the order in which the loop meets
them. -/
def connectedFees (env : Env) (s : FeeState) : List ℕ :=
  (s.manager.connectedPeers.reverse.filter (fun p => env.status p = .connected)).map
    (fun p => (s.feePerKb p).toNat)

section Rate

/-- The loop is the pass that keeps the runner-up. -/
theorem feeLoop_eq
    (env : Env) (feePerKb : BRPeer → UInt64) (peers : List BRPeer) (r : UInt64 × UInt64) :
    ((feeLoop env feePerKb peers r).1.toNat, (feeLoop env feePerKb peers r).2.toNat) =
      ((peers.filter (fun p => env.status p = .connected)).map
        (fun p => (feePerKb p).toNat)).foldl RunnerUp.step (r.1.toNat, r.2.toNat) := by
  induction peers generalizing r with
  | nil =>
      rfl
  | cons p peers ih =>
      rw [feeLoop]
      by_cases hstatus : env.status p = .connected
      · rw [if_neg (not_not.mpr hstatus), List.filter_cons_of_pos (by simpa using hstatus),
          List.map_cons, List.foldl_cons, RunnerUp.step]
        by_cases hlt : feePerKb p > r.1
        · rw [if_pos hlt, if_pos (UInt64.lt_iff_toNat_lt.mp hlt), ih]
        · rw [if_neg hlt, if_neg (fun h => hlt (UInt64.lt_iff_toNat_lt.mpr h)), ih]
      · rw [if_pos hstatus, List.filter_cons_of_neg (by simpa using hstatus), ih]

theorem toNat_secondFeePerKb
    (env : Env) (s : FeeState) :
    (s.secondFeePerKb env).toNat = (RunnerUp.scan (s.connectedFees env)).2 := by
  have hloop := feeLoop_eq env s.feePerKb s.manager.connectedPeers.reverse (0, 0)
  exact congrArg Prod.snd hloop

end Rate

section Runs

/-- The rate of the wallet is raised or kept, and what it is raised to is
bounded. -/
structure Raises (rate rate' : UInt64) : Prop where
  le : rate ≤ rate'
  bounded : rate' ≠ rate → rate' ≤ maxFeePerKb

theorem Raises.refl
    (rate : UInt64) :
    Raises rate rate :=
  ⟨UInt64.le_refl rate, fun h => absurd rfl h⟩

theorem Raises.trans
    {r₁ r₂ r₃ : UInt64}
    (h : Raises r₁ r₂)
    (h' : Raises r₂ r₃) :
    Raises r₁ r₃ := by
  refine ⟨UInt64.le_trans h.le h'.le, fun hne => ?_⟩
  by_cases heq : r₃ = r₂
  · subst heq
    exact h.bounded hne
  · exact h'.bounded heq

theorem peerSetFeePerKb_raises
    (env : Env) (s : FeeState) :
    Raises s.manager.wallet.feePerKb (s.peerSetFeePerKb env).manager.wallet.feePerKb := by
  rw [peerSetFeePerKb]
  dsimp only
  split
  · rename_i h
    exact ⟨UInt64.le_of_lt h.2.2, fun _ => h.2.1⟩
  · exact Raises.refl _

theorem acceptFeeFilter_raises
    (s : FeeState) (m : FeeFilter) :
    Raises s.manager.wallet.feePerKb (s.acceptFeeFilter m).1.manager.wallet.feePerKb := by
  rw [acceptFeeFilter]
  split
  · exact Raises.refl _
  · exact peerSetFeePerKb_raises m.env { s with feePerKb := Function.update s.feePerKb m.peer _ }

theorem acceptAll_raises
    (s : FeeState) (messages : List FeeFilter) :
    Raises s.manager.wallet.feePerKb (s.acceptAll messages).manager.wallet.feePerKb := by
  induction messages generalizing s with
  | nil =>
      exact Raises.refl _
  | cons m messages ih =>
      exact (acceptFeeFilter_raises s m).trans (ih (s.acceptFeeFilter m).1)

end Runs

section Estimate

/-- The rate that is used is the second highest one of the connected peers, and
sequences of messages raise the rate of the wallet, up to the maximum. -/
structure EstimatesFee (env : Env) (s : FeeState) : Prop where
  rate : (s.secondFeePerKb env).toNat = RunnerUp.second (s.connectedFees env)
  raises : ∀ messages, Raises s.manager.wallet.feePerKb
    (s.acceptAll messages).manager.wallet.feePerKb

/-- The estimate is right exactly if no connected peer that is met behind the
first one with the highest rate exceeds all those in front of it. -/
theorem estimatesFee_iff
    (env : Env) (s : FeeState) :
    s.EstimatesFee env ↔ RunnerUp.Ascends (s.connectedFees env) := by
  rw [← RunnerUp.scan_snd_eq_second_iff, ← toNat_secondFeePerKb]
  exact ⟨fun h => h.rate, fun h => ⟨h, s.acceptAll_raises⟩⟩

/-- Two connected peers with these rates. -/
def twoPeers (feePerKb feePerKb' : UInt64) : FeeState where
  manager := {
    blocks := []
    orphans := []
    checkpoints := []
    lastBlock := none
    connectedPeers := [⟨1, 8555⟩, ⟨2, 8555⟩]
    wallet := BRWallet.empty ⟨fun _ _ => none⟩
    earliestKeyTime := 0 }
  feePerKb p := if p.address = 1 then feePerKb else feePerKb'

/-- The loop meets the higher rate first, and does not use the lower one. -/
theorem not_estimatesFee_twoPeers :
    ¬ (twoPeers 150000 200000).EstimatesFee
      { quietEnv [] with status := fun _ => .connected } := by
  intro h
  exact absurd h.rate (by decide)

end Estimate

end FeeState
end BreadwalletCore
