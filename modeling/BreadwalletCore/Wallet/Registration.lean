import BreadwalletCore.Wallet.History

/-!
# Registration

Runs of `BRWalletRegisterTransaction` alone, with the value that each call
returns.  A call returns 1 for every transaction of `allTx`, listed or not, and
`allTx` keeps the unconfirmed transactions that were refused.  So nothing is
lost exactly in the runs that offer no transaction which `allTx` holds and the
list does not.
-/

namespace BreadwalletCore

open Machine

/-- A transaction offered by a peer, with the clock that the call sees. -/
structure Offer where
  now : Int := 0
  tx : BRTransaction

/-- One call of `BRWalletRegisterTransaction`; it emits what it returned. -/
def offer (fuel : Nat) (w : BRWallet) (o : Offer) :
    Except Fault (BRWallet × List (UInt256 × Bool)) := do
  let (w, _, r) ← w.registerTransaction fuel o.now o.tx
  .ok (w, [(o.tx.txHash, r)])

/-- A sequence of offers, with what each returned. -/
abbrev runOffers (fuel : Nat) (w : BRWallet) (offers : List Offer) :
    Except Fault (BRWallet × List (UInt256 × Bool)) :=
  run (offer fuel) w offers

/-- A transaction that `allTx` holds is offered only if it is listed. -/
def RegisterSafe (w : BRWallet) (o : Offer) : Prop :=
  w.knowsTx o.tx.txHash = true → w.listsTx o.tx.txHash = true

/-- Whenever a call of the run returns 1 the transaction is listed afterwards. -/
def Lossless (fuel : Nat) (w : BRWallet) (offers : List Offer) : Prop :=
  ∀ pre o post w₁ log, offers = pre ++ o :: post →
    runOffers fuel w pre = .ok (w₁, log) →
    ∀ w₂ events, w₁.registerTransaction fuel o.now o.tx = .ok (w₂, events, true) →
      w₂.listsTx o.tx.txHash = true

/-- Each refused transaction is offered again later. -/
def Reoffered : List (UInt256 × Bool) → Prop
  | [] => True
  | (txHash, r) :: log => (r = false → txHash ∈ log.map Prod.fst) ∧ Reoffered log

/-- The transactions that some offers carry. -/
def offeredTxs (offers : List Offer) : List BRTransaction :=
  offers.map (·.tx)

section Offers

variable {fuel : Nat} {w w' : BRWallet} {o : Offer} {log : List (UInt256 × Bool)}

/-- Registration adds one transaction to the list. -/
theorem mem_registered
    {now : Int} {tx t : BRTransaction} {w₁ : BRWallet}
    (h : ((w.addTx tx).insertTx tx).updateBalance now = .ok w₁) :
    t ∈ (w₁.filled fuel).transactions ↔ t = tx ∨ t ∈ w.transactions := by
  rw [filled_transactions, updateBalance_transactions h, mem_insertTx]
  rfl

/-- One call loses nothing exactly if it is safe. -/
theorem registerTransaction_lists_iff
    (hsigned : o.tx.isSigned = true) :
    (∀ w₂ events, w.registerTransaction fuel o.now o.tx = .ok (w₂, events, true) →
      w₂.listsTx o.tx.txHash = true) ↔ RegisterSafe w o := by
  constructor
  · intro h hknown
    exact h w [] (by simp [BRWallet.registerTransaction, hsigned, hknown])
  · intro hsafe w₂ events hreg
    cases registerTransaction_cases hreg with
    | known _ hknown =>
        exact hsafe hknown
    | added _ _ _ hbal =>
        exact listsTx_iff.mpr ⟨o.tx, (mem_registered hbal).mpr (Or.inl rfl), rfl⟩

theorem Listed.offer
    (hw : Listed w)
    (h : offer fuel w o = .ok (w', log)) :
    Listed w' := by
  obtain ⟨⟨w₁, events, r⟩, hreg, hret⟩ := bind_eq_ok.mp h
  cases hret
  exact hw.registerTransaction hreg

/-- What an offer of a signed transaction does to the list and to `allTx`. -/
inductive Offered (w : BRWallet) (tx : BRTransaction) : BRWallet → Bool → Prop where
  | known :
      w.knowsTx tx.txHash = true → Offered w tx w true
  | added {w' : BRWallet} :
      w.knowsTx tx.txHash = false →
      (∀ h, w'.knowsTx h = (decide (tx.txHash = h) || w.knowsTx h)) →
      (∀ t, t ∈ w'.transactions ↔ t = tx ∨ t ∈ w.transactions) →
      Offered w tx w' true
  | refused {w' : BRWallet} :
      w.knowsTx tx.txHash = false →
      (tx.isUnconfirmed = true → w'.knowsTx tx.txHash = true) →
      (∀ h, w.knowsTx h = true → w'.knowsTx h = true) →
      w'.transactions = w.transactions → Offered w tx w' false

theorem offer_cases
    (hsigned : o.tx.isSigned = true)
    (h : offer fuel w o = .ok (w', log)) :
    ∃ r, log = [(o.tx.txHash, r)] ∧ Offered w o.tx w' r := by
  obtain ⟨⟨w₁, events, r⟩, hreg, hret⟩ := bind_eq_ok.mp h
  cases hret
  refine ⟨r, rfl, ?_⟩
  cases registerTransaction_cases hreg with
  | unsigned hunsigned =>
      rw [hsigned] at hunsigned
      cases hunsigned
  | known _ hknown =>
      exact .known hknown
  | added _ hknown _ hbal =>
      refine .added hknown ?_ (fun t => mem_registered hbal)
      intro txHash
      obtain ⟨L, rfl⟩ := updateBalance_frame hbal
      exact knowsTx_addTx txHash
  | refused _ hknown _ =>
      refine .refused hknown ?_ ?_ ?_
      · intro hunconf
        rw [if_pos hunconf, knowsTx_addTx]
        simp
      · intro txHash hmem
        split
        · rw [knowsTx_addTx, hmem]
          simp
        · exact hmem
      · split <;> rfl

end Offers

section Runs

variable {fuel : Nat} {w w' : BRWallet} {offers : List Offer}
  {log : List (UInt256 × Bool)}

theorem lossless_iff
    (hsigned : ∀ o ∈ offers, o.tx.isSigned = true) :
    Lossless fuel w offers ↔ Guarded (offer fuel) RegisterSafe w offers := by
  rw [guarded_iff_forall]
  constructor
  · intro h pre o post w₁ log hoffers hrun
    have ho : o ∈ offers := by simp [hoffers]
    exact (registerTransaction_lists_iff (hsigned o ho)).mp
      (h pre o post w₁ log hoffers hrun)
  · intro h pre o post w₁ log hoffers hrun
    have ho : o ∈ offers := by simp [hoffers]
    exact (registerTransaction_lists_iff (hsigned o ho)).mpr
      (h pre o post w₁ log hoffers hrun)

/-- Known and not listed. -/
def Stuck (w : BRWallet) (txHash : UInt256) : Prop :=
  w.knowsTx txHash = true ∧ w.listsTx txHash = false

/-- No offer lists a transaction that is stuck. -/
theorem Stuck.offered
    {tx : BRTransaction} {txHash : UInt256} {r : Bool}
    (hstuck : Stuck w txHash)
    (h : Offered w tx w' r) :
    Stuck w' txHash := by
  obtain ⟨hknown, hlists⟩ := hstuck
  cases h with
  | known _ =>
      exact ⟨hknown, hlists⟩
  | added hnew hknows hmem =>
      refine ⟨by rw [hknows, hknown]; simp, ?_⟩
      rw [Bool.eq_false_iff, ne_eq, listsTx_iff]
      rintro ⟨t, ht, rfl⟩
      rcases (hmem t).mp ht with rfl | ht
      · rw [hnew] at hknown
        cases hknown
      · rw [listsTx_iff.mpr ⟨t, ht, rfl⟩] at hlists
        cases hlists
  | refused _ _ hmono htxs =>
      refine ⟨hmono txHash hknown, ?_⟩
      rw [BRWallet.listsTx, htxs]
      exact hlists

/-- A safe run never offers a transaction that is stuck. -/
theorem Stuck.not_offered
    {txHash : UInt256}
    (hstuck : Stuck w txHash)
    (hsigned : ∀ o ∈ offers, o.tx.isSigned = true)
    (hguard : Guarded (offer fuel) RegisterSafe w offers)
    (hrun : runOffers fuel w offers = .ok (w', log)) :
    txHash ∉ log.map Prod.fst := by
  induction offers generalizing w log with
  | nil =>
      cases hrun
      simp
  | cons o offers ih =>
      obtain ⟨w₁, l, log', ho, hrest, rfl⟩ := run_cons_ok hrun
      obtain ⟨r, rfl, hoff⟩ := offer_cases (hsigned o (by simp)) ho
      have htail := ih (hstuck.offered hoff) (fun o ho => hsigned o (by simp [ho]))
        (hguard.2 w₁ _ ho) hrest
      have hne : txHash ≠ o.tx.txHash := by
        rintro rfl
        have hlists := hguard.1 hstuck.1
        rw [hstuck.2] at hlists
        cases hlists
      simpa [hne] using htail

/-- Registration keeps what is listed and lists only what is offered. -/
theorem runOffers_transactions
    (hsigned : ∀ o ∈ offers, o.tx.isSigned = true)
    (hrun : runOffers fuel w offers = .ok (w', log)) :
    (∀ t ∈ w.transactions, t ∈ w'.transactions) ∧
      ∀ t ∈ w'.transactions, t ∈ w.transactions ∨ t ∈ offeredTxs offers := by
  induction offers generalizing w log with
  | nil =>
      cases hrun
      exact ⟨fun t ht => ht, fun t ht => Or.inl ht⟩
  | cons o offers ih =>
      obtain ⟨w₁, l, log', ho, hrest, rfl⟩ := run_cons_ok hrun
      obtain ⟨r, rfl, hoff⟩ := offer_cases (hsigned o (by simp)) ho
      obtain ⟨hkeep, honly⟩ := ih (fun o ho => hsigned o (by simp [ho])) hrest
      have hstep : (∀ t ∈ w.transactions, t ∈ w₁.transactions) ∧
          ∀ t ∈ w₁.transactions, t ∈ w.transactions ∨ t = o.tx := by
        cases hoff with
        | known _ =>
            exact ⟨fun t ht => ht, fun t ht => Or.inl ht⟩
        | added _ _ hmem =>
            exact ⟨fun t ht => (hmem t).mpr (Or.inr ht), fun t ht => ((hmem t).mp ht).symm⟩
        | refused _ _ _ htxs =>
            rw [htxs]
            exact ⟨fun t ht => ht, fun t ht => Or.inl ht⟩
      refine ⟨fun t ht => hkeep t (hstep.1 t ht), ?_⟩
      intro t ht
      rcases honly t ht with ht | ht
      · rcases hstep.2 t ht with ht | rfl
        · exact Or.inl ht
        · exact Or.inr (by simp [offeredTxs])
      · exact Or.inr (List.mem_cons_of_mem _ ht)

theorem Listed.runOffers
    (hw : Listed w)
    (hrun : runOffers fuel w offers = .ok (w', log)) :
    Listed w' :=
  run_preserves (fun _ _ _ _ hw ho => hw.offer ho) hw hrun

/-- A safe run that offers refused transactions again lists all it offers. -/
theorem runOffers_lists
    (hw : Listed w)
    (hsigned : ∀ o ∈ offers, o.tx.isSigned = true)
    (hunconf : ∀ o ∈ offers, o.tx.isUnconfirmed = true)
    (hguard : Guarded (offer fuel) RegisterSafe w offers)
    (hrun : runOffers fuel w offers = .ok (w', log))
    (hagain : Reoffered log) :
    ∀ o ∈ offers, w'.listsTx o.tx.txHash = true := by
  induction offers generalizing w log with
  | nil =>
      simp
  | cons o offers ih =>
      obtain ⟨w₁, l, log', ho, hrest, rfl⟩ := run_cons_ok hrun
      obtain ⟨r, rfl, hoff⟩ := offer_cases (hsigned o (by simp)) ho
      have hsigned' : ∀ o ∈ offers, o.tx.isSigned = true :=
        fun o ho => hsigned o (by simp [ho])
      have hguard' := hguard.2 w₁ _ ho
      have hw₁ : Listed w₁ := hw.offer ho
      have hlists : w₁.listsTx o.tx.txHash = true := by
        cases hoff with
        | known hknown =>
            exact hguard.1 hknown
        | added _ _ hmem =>
            exact listsTx_iff.mpr ⟨o.tx, (hmem o.tx).mpr (Or.inl rfl), rfl⟩
        | refused hnew hknows _ htxs =>
            -- it would be stuck, but it is offered again
            have hstuck : Stuck w₁ o.tx.txHash := by
              refine ⟨hknows (hunconf o (by simp)), ?_⟩
              rw [BRWallet.listsTx, htxs]
              exact hw.not_lists hnew
            exact absurd (hagain.1 rfl)
              (hstuck.not_offered hsigned' hguard' hrest)
      intro o' ho'
      rcases List.mem_cons.mp ho' with rfl | ho'
      · obtain ⟨t, ht, heq⟩ := listsTx_iff.mp hlists
        exact listsTx_iff.mpr ⟨t, (runOffers_transactions hsigned' hrest).1 t ht, heq⟩
      · exact ih hw₁ hsigned' (fun o ho => hunconf o (by simp [ho])) hguard' hrest
          hagain.2 o' ho'

/-- Two safe runs over the same transactions: what the first lists, the second
lists too. -/
theorem runOffers_subset
    {offers₁ offers₂ : List Offer} {w₁ w₂ : BRWallet}
    {log₁ log₂ : List (UInt256 × Bool)}
    (hw : Listed w)
    (hsigned : ∀ tx ∈ offeredTxs offers₂, tx.isSigned = true)
    (hunconf : ∀ tx ∈ offeredTxs offers₂, tx.isUnconfirmed = true)
    (hinj : ∀ a ∈ offeredTxs offers₂, ∀ b ∈ offeredTxs offers₂,
      a.txHash = b.txHash → a = b)
    (hsame : ∀ tx ∈ offeredTxs offers₁, tx ∈ offeredTxs offers₂)
    (hrun₁ : runOffers fuel w offers₁ = .ok (w₁, log₁))
    (hguard₂ : Guarded (offer fuel) RegisterSafe w offers₂)
    (hrun₂ : runOffers fuel w offers₂ = .ok (w₂, log₂))
    (hagain₂ : Reoffered log₂) :
    ∀ tx ∈ w₁.transactions, tx ∈ w₂.transactions := by
  have hsigned₁ : ∀ o ∈ offers₁, o.tx.isSigned = true :=
    fun o ho => hsigned o.tx (hsame _ (List.mem_map_of_mem ho))
  have hsigned₂ : ∀ o ∈ offers₂, o.tx.isSigned = true :=
    fun o ho => hsigned o.tx (List.mem_map_of_mem ho)
  have hunconf₂ : ∀ o ∈ offers₂, o.tx.isUnconfirmed = true :=
    fun o ho => hunconf o.tx (List.mem_map_of_mem ho)
  obtain ⟨hkeep₁, honly₁⟩ := runOffers_transactions hsigned₁ hrun₁
  obtain ⟨hkeep₂, honly₂⟩ := runOffers_transactions hsigned₂ hrun₂
  have hw₁ : Listed w₁ := Listed.runOffers hw hrun₁
  intro tx htx
  rcases honly₁ tx htx with hold | hoff
  · exact hkeep₂ tx hold
  · have hoff₂ := hsame tx hoff
    obtain ⟨o, ho, rfl⟩ := List.mem_map.mp hoff₂
    obtain ⟨t, ht, heq⟩ := listsTx_iff.mp
      (runOffers_lists hw hsigned₂ hunconf₂ hguard₂ hrun₂ hagain₂ o ho)
    -- the listed transaction of that hash is the offered one
    have hsame : t = o.tx := by
      rcases honly₂ t ht with hold | hnew
      · exact List.inj_on_of_nodup_map hw₁.nodup (hkeep₁ t hold) htx heq
      · exact hinj t hnew o.tx hoff₂ heq
    rw [← hsame]
    exact ht

/--
**Registration.**  A run of registrations lists every transaction it returns 1
for if and only if it offers no transaction that `allTx` holds and the list does
not.  Two such runs over the same unconfirmed transactions, in any order, that
offer each refused transaction again end with the same transactions listed.
-/
theorem runOffers_lossless
    (hw : Listed w) :
    (∀ offers, (∀ o ∈ offers, o.tx.isSigned = true) →
      (Lossless fuel w offers ↔ Guarded (offer fuel) RegisterSafe w offers)) ∧
    ∀ offers₁ offers₂ w₁ w₂ log₁ log₂,
      (∀ tx ∈ offeredTxs offers₁, tx.isSigned = true) →
      (∀ tx ∈ offeredTxs offers₁, tx.isUnconfirmed = true) →
      (∀ a ∈ offeredTxs offers₁, ∀ b ∈ offeredTxs offers₁,
        a.txHash = b.txHash → a = b) →
      (∀ tx, tx ∈ offeredTxs offers₁ ↔ tx ∈ offeredTxs offers₂) →
      Guarded (offer fuel) RegisterSafe w offers₁ →
      runOffers fuel w offers₁ = .ok (w₁, log₁) → Reoffered log₁ →
      Guarded (offer fuel) RegisterSafe w offers₂ →
      runOffers fuel w offers₂ = .ok (w₂, log₂) → Reoffered log₂ →
      ∀ tx, tx ∈ w₁.transactions ↔ tx ∈ w₂.transactions := by
  refine ⟨fun offers hsigned => lossless_iff hsigned, ?_⟩
  intro offers₁ offers₂ w₁ w₂ log₁ log₂ hsigned hunconf hinj hsame hguard₁ hrun₁
    hagain₁ hguard₂ hrun₂ hagain₂ tx
  constructor
  · refine runOffers_subset hw ?_ ?_ ?_ (fun t => (hsame t).mp) hrun₁ hguard₂ hrun₂
      hagain₂ tx
    · exact fun t ht => hsigned t ((hsame t).mpr ht)
    · exact fun t ht => hunconf t ((hsame t).mpr ht)
    · exact fun a ha b hb => hinj a ((hsame a).mpr ha) b ((hsame b).mpr hb)
  · exact runOffers_subset hw hsigned hunconf hinj (fun t => (hsame t).mpr) hrun₂
      hguard₁ hrun₁ hagain₁ tx

/-- A payment to the wallet, and a transaction that spends it and pays the given
address. -/
def relayedParent : BRTransaction :=
  sampleTx 1 [⟨97, 0⟩] [1, 0] 50000 txUnconfirmed

def relayedChild (address : Address) : BRTransaction :=
  sampleTx 2 [⟨1, 0⟩] address 40000 txUnconfirmed

/-- The state and the returned values behind a run of offers. -/
def sampleOffers (w : BRWallet) (offers : List Offer) : BRWallet × List (UInt256 × Bool) :=
  match runOffers 20 w offers with
  | .ok r => r
  | .error _ => (w, [])

/-- A payment back to the wallet is recognised before its parent is known. -/
theorem runOffers_lossless_sample :
    BRWallet.new 20 0 [] sampleKey = .ok (some (sampleNew [])) ∧
      ∀ tx, tx ∈ (sampleOffers (sampleNew [])
          [⟨0, relayedParent⟩, ⟨0, relayedChild [1, 1]⟩]).1.transactions ↔
        tx ∈ (sampleOffers (sampleNew [])
          [⟨0, relayedChild [1, 1]⟩, ⟨0, relayedParent⟩]).1.transactions := by
  have hlisted : Listed (sampleNew []) := ⟨by decide, by decide⟩
  have hsafe : ∀ w o, w.knowsTx o.tx.txHash = false → RegisterSafe w o := by
    intro w o hnew hknown
    rw [hnew] at hknown
    cases hknown
  refine ⟨rfl, (@runOffers_lossless 20 (sampleNew []) hlisted).2
    [⟨0, relayedParent⟩, ⟨0, relayedChild [1, 1]⟩]
    [⟨0, relayedChild [1, 1]⟩, ⟨0, relayedParent⟩]
    _ _ [(1, true), (2, true)] [(2, true), (1, true)]
    (by decide) (by decide) (by decide) ?_ ?_ rfl ?_ ?_ rfl ?_⟩
  · intro tx
    simp [offeredTxs, or_comm]
  · exact guarded_cons (hsafe _ _ rfl) rfl (guarded_cons (hsafe _ _ rfl) rfl trivial)
  · simp [Reoffered]
  · exact guarded_cons (hsafe _ _ rfl) rfl (guarded_cons (hsafe _ _ rfl) rfl trivial)
  · simp [Reoffered]

/-- The child arrives first, is refused, and is offered again behind its parent. -/
def childFirst : List Offer :=
  [⟨0, relayedChild [9, 9]⟩, ⟨0, relayedParent⟩, ⟨0, relayedChild [9, 9]⟩]

def parentFirst : List Offer :=
  [⟨0, relayedParent⟩, ⟨0, relayedChild [9, 9]⟩]

theorem childFirst_lost :
    BRWallet.new 20 0 [] sampleKey = .ok (some (sampleNew [])) ∧
      (∀ tx ∈ offeredTxs childFirst, tx.isSigned = true ∧ tx.isUnconfirmed = true) ∧
      (∀ tx, tx ∈ offeredTxs childFirst ↔ tx ∈ offeredTxs parentFirst) ∧
      (∃ w, runOffers 20 (sampleNew []) childFirst =
          .ok (w, [(2, false), (1, true), (2, true)]) ∧
        Reoffered [(2, false), (1, true), (2, true)] ∧
        w.transactions = [relayedParent]) ∧
      (∃ w, runOffers 20 (sampleNew []) parentFirst = .ok (w, [(1, true), (2, true)]) ∧
        Reoffered [(1, true), (2, true)] ∧
        w.transactions = [relayedParent, relayedChild [9, 9]]) ∧
      ¬ Lossless 20 (sampleNew []) childFirst := by
  refine ⟨rfl, by decide, ?_, ⟨_, rfl, by simp [Reoffered], rfl⟩,
    ⟨_, rfl, by simp [Reoffered], rfl⟩, ?_⟩
  · intro tx
    simp only [offeredTxs, childFirst, parentFirst, List.map_cons, List.map_nil,
      List.mem_cons, List.not_mem_nil]
    tauto
  · intro h
    have hlists := h [⟨0, relayedChild [9, 9]⟩, ⟨0, relayedParent⟩]
      ⟨0, relayedChild [9, 9]⟩ [] _ _ rfl rfl _ _ rfl
    cases hlists

end Runs

end BreadwalletCore
