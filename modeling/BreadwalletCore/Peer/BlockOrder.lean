import BreadwalletCore.Data.Machine
import BreadwalletCore.Peer.Messages

/-!
# Blocks are handed over behind their transactions

A block waits for the transactions that it matches, except for those in the
known set.  There are three ways into this set: a local `BRPeerSendInv` or
`BRPeerSendMempool`, and an inventory of the peer.  The last is an announcement
and not a delivery, so a block can be handed over in front of a transaction
that the peer has only announced.
-/

namespace BreadwalletCore

open Machine

/-! ## What has happened to a transaction -/

/-- The peer has sent the transaction. -/
def Delivered (es : List PeerEvent) (txHash : UInt256) : Prop :=
  ∃ tx, .relayedTx tx ∈ es ∧ tx.txHash = txHash

/-- A local call has put the transaction into the known set. -/
def PutLocally (es : List PeerEvent) (txHash : UInt256) : Prop :=
  ∃ hashes, (.sentInv hashes ∈ es ∨ .sentMempool hashes ∈ es) ∧ txHash ∈ hashes

/-- The transaction is here, or the wallet had it. -/
def Accounted (es : List PeerEvent) (txHash : UInt256) : Prop :=
  Delivered es txHash ∨ PutLocally es txHash

/-- All transactions that the block matches are accounted for. -/
def Complete (es : List PeerEvent) (block : PeerBlock) : Prop :=
  ∀ hashes, PeerContext.matchedHashes block = .ok hashes → ∀ h ∈ hashes, Accounted es h

/-- Each block is handed over when its transactions are accounted for. -/
def TxsFirst (log : List PeerEvent) : Prop :=
  ∀ before block after, log = before ++ .relayedBlock block :: after → Complete before block

section Logs

variable {es es' log : List PeerEvent} {txHash : UInt256} {block : PeerBlock}

theorem Accounted.append
    (h : Accounted es txHash) (es' : List PeerEvent) :
    Accounted (es ++ es') txHash := by
  rcases h with ⟨tx, htx, heq⟩ | ⟨hashes, hsent, hmem⟩
  · exact Or.inl ⟨tx, List.mem_append_left _ htx, heq⟩
  · exact Or.inr ⟨hashes, hsent.imp (List.mem_append_left _) (List.mem_append_left _), hmem⟩

theorem TxsFirst.append
    (h : TxsFirst log)
    (hes : ∀ before block after, es = before ++ .relayedBlock block :: after →
      Complete (log ++ before) block) :
    TxsFirst (log ++ es) := by
  intro before block after heq
  rcases List.append_eq_append_iff.mp heq with ⟨mid, rfl, hes'⟩ | ⟨mid, rfl, hmid⟩
  · exact hes mid block after hes'
  · cases mid with
    | nil =>
        have hfirst := hes [] block after hmid.symm
        rwa [List.append_nil, List.append_nil] at hfirst
    | cons e mid =>
        rw [List.cons_append, List.cons.injEq] at hmid
        obtain ⟨rfl, -⟩ := hmid
        exact h before block mid rfl

/-- A list of one block is cut in front of it. -/
theorem single_block
    {before after : List PeerEvent} {b : PeerBlock}
    (h : [.relayedBlock block] = before ++ .relayedBlock b :: after) :
    before = [] ∧ b = block := by
  cases before with
  | nil =>
      rw [List.nil_append, List.cons.injEq] at h
      cases h.1
      exact ⟨rfl, rfl⟩
  | cons e before =>
      have hlen := congrArg List.length h
      simp at hlen

/-- Events without a block. -/
theorem TxsFirst.append_quiet
    (h : TxsFirst log)
    (hes : ∀ block, .relayedBlock block ∉ es) :
    TxsFirst (log ++ es) := by
  refine h.append ?_
  rintro before block after rfl
  exact absurd (by simp) (hes block)

end Logs

/-! ## What a step may do -/

/-- The fields that say which block waits for what. -/
def PeerContext.awaits (ctx : PeerContext) : Option PeerBlock × List UInt256 :=
  (ctx.currentBlock, ctx.currentBlockTxHashes)

/-- The effect of a step on the block that waits. -/
inductive PeerEffect (ctx : PeerContext) (i : PeerInput) (ctx' : PeerContext) :
    List PeerEvent → Prop where
  | quiet {es : List PeerEvent} :
      ctx'.awaits = ctx.awaits → (∀ block, .relayedBlock block ∉ es) →
      PeerEffect ctx i ctx' es
  | dropped :
      ctx'.awaits = (none, []) → PeerEffect ctx i ctx' []
  | delivered {tx : RawTransaction} :
      ctx'.awaits = (ctx.deliverTx tx).1.awaits →
      PeerEffect ctx i ctx' (ctx.deliverTx tx).2
  | arrived {msg : List UInt8} {block : PeerBlock} {hashes : List UInt256} :
      i.call = .message .merkleblock msg → i.env.parseBlock msg = some block →
      PeerContext.matchedHashes block = .ok hashes → ctx.currentBlock = none →
      ctx'.awaits = (ctx.takeBlock block hashes).1.awaits →
      PeerEffect ctx i ctx' (ctx.takeBlock block hashes).2

/-- A call that leaves the waiting block alone. -/
def PeerContext.Quiet (ctx : PeerContext) (called : PeerContext × List PeerEvent) : Prop :=
  called.1.awaits = ctx.awaits ∧ ∀ block, .relayedBlock block ∉ called.2

namespace PeerContext

variable {ctx ctx' : PeerContext} {i : PeerInput} {es : List PeerEvent} {r : Bool}
variable {env : PeerEnv} {msg : List UInt8}

theorem sendGetdata_quiet
    (ctx : PeerContext) (txHashes blockHashes : List UInt256) :
    ctx.Quiet (ctx.sendGetdata txHashes blockHashes) := by
  rw [sendGetdata]
  split
  · exact ⟨rfl, by simp⟩
  · split
    · exact ⟨rfl, by simp⟩
    · exact ⟨rfl, by simp⟩

theorem mempoolAnswered_quiet
    (ctx : PeerContext) (transactions : List UInt256) :
    ctx.Quiet (ctx.mempoolAnswered transactions) := by
  rw [mempoolAnswered]
  split
  · exact ⟨rfl, by simp [pingMempool]⟩
  · exact ⟨rfl, by simp⟩

theorem nextGetblocks_quiet
    (blocks : List UInt256) (block : PeerBlock) :
    .relayedBlock block ∉ nextGetblocks blocks := by
  rw [nextGetblocks]
  split <;> simp

theorem takeInv_quiet
    (ctx : PeerContext) (transactions blocks : List UInt256) :
    ctx.Quiet (ctx.takeInv transactions blocks) := by
  rw [takeInv]
  generalize (if ctx.needsFilterUpdate then [] else ctx.invBlocks blocks) = asked
  generalize hctx : ((ctx.rememberBlocks (ctx.invBlocks blocks)).addKnownTxHashes
    (transactions.filter (· ∉ ctx.knownTxHashes))) = ctx₁
  have hstart : ctx₁.awaits = ctx.awaits := by
    rw [← hctx]
    rfl
  obtain ⟨hdata, hdata'⟩ :=
    ctx₁.sendGetdata_quiet (transactions.filter (· ∉ ctx.knownTxHashes)) asked
  obtain ⟨hping, hping'⟩ :=
    (ctx₁.sendGetdata (transactions.filter (· ∉ ctx.knownTxHashes)) asked).1.mempoolAnswered_quiet
      transactions
  refine ⟨hping.trans (hdata.trans hstart), ?_⟩
  intro block hmem
  rw [List.mem_append, List.mem_append, List.mem_append] at hmem
  rcases hmem with ((hmem | hmem) | hmem) | hmem
  · obtain ⟨h, -, heq⟩ := List.mem_map.mp hmem
    cases heq
  · exact hdata' block hmem
  · exact nextGetblocks_quiet asked block hmem
  · exact hping' block hmem

theorem acceptInv_quiet
    (ctx : PeerContext) (msg : List UInt8) :
    (ctx.acceptInv msg).1.awaits = ctx.awaits ∧
      ∀ block, .relayedBlock block ∉ (ctx.acceptInv msg).2.1 := by
  rcases ctx.acceptInv_cases msg with ⟨r, heq⟩ | ⟨transactions, blocks, heq⟩
  · rw [heq]
    exact ⟨rfl, by simp⟩
  · rw [heq]
    exact ctx.takeInv_quiet transactions blocks

theorem rerequestBlocks_quiet
    (ctx : PeerContext) (fromBlock : UInt256) :
    ctx.Quiet (ctx.rerequestBlocks fromBlock) := by
  rw [rerequestBlocks]
  split
  · obtain ⟨hdata, hdata'⟩ := sendGetdata_quiet
      { ctx with
        knownBlockHashes := fromBlock ::
          (ctx.knownBlockHashes.reverse.takeWhile (· ≠ fromBlock)).reverse }
      [] (fromBlock :: (ctx.knownBlockHashes.reverse.takeWhile (· ≠ fromBlock)).reverse)
    exact ⟨hdata, hdata'⟩
  · exact ⟨rfl, by simp⟩

theorem sendInv_quiet
    (ctx : PeerContext) (txHashes : List UInt256) :
    ctx.Quiet (ctx.sendInv txHashes) := by
  refine ⟨rfl, ?_⟩
  intro block
  simp only [sendInv]
  split <;> simp

theorem sendMempool_quiet
    (ctx : PeerContext) (known : List UInt256) (callback : Option ℕ) :
    ctx.Quiet (ctx.sendMempool known callback) := by
  rw [sendMempool]
  split
  · exact ⟨rfl, by simp⟩
  · refine ⟨rfl, ?_⟩
    cases callback <;> simp

theorem Quiet.effect
    {called : PeerContext × List PeerEvent}
    (hquiet : ctx.Quiet called)
    (h : (pure called : Except PeerFault (PeerContext × List PeerEvent)) = .ok (ctx', es)) :
    PeerEffect ctx i ctx' es := by
  have heq : called = (ctx', es) := Except.ok.inj h
  subst heq
  exact .quiet hquiet.1 hquiet.2

/-- What a message may do. -/
theorem acceptMessage_effect
    {type : MessageType} {c : PeerContext}
    (hcall : i.call = .message type msg)
    (hread : ctx'.awaits = c.awaits)
    (h : ctx.acceptMessage i.env type msg = .ok (c, es, r)) :
    PeerEffect ctx i ctx' es := by
  unfold acceptMessage at h
  split at h
  · cases h
    exact .dropped hread
  · rename_i hfree
    have hquiet : ∀ d : PeerContext, d.awaits = ctx.awaits → ∀ b,
        (pure (d, [], b) : Except PeerFault (PeerContext × List PeerEvent × Bool)) =
          .ok (c, es, r) → PeerEffect ctx i ctx' es := by
      intro d hd b hret
      cases hret
      exact .quiet (hread.trans hd) (by simp)
    cases type with
    | inv =>
        obtain ⟨hsame, hnone⟩ := ctx.acceptInv_quiet msg
        have heq : ctx.acceptInv msg = (c, es, r) := Except.ok.inj h
        rw [heq] at hsame hnone
        exact .quiet (hread.trans hsame) hnone
    | tx =>
        obtain ⟨parsed, -, h⟩ := bind_eq_ok.mp h
        cases parsed with
        | none =>
            exact hquiet ctx rfl _ h
        | some tx =>
            dsimp only at h
            split at h
            · exact hquiet ctx rfl _ h
            · cases h
              exact .delivered hread
    | merkleblock =>
        have hblock : ctx.currentBlock = none := by
          simpa using hfree
        change ctx.acceptMerkleblock i.env msg = _ at h
        rw [acceptMerkleblock] at h
        split at h
        · exact hquiet ctx rfl _ h
        · rename_i block hparse
          obtain ⟨valid, -, h⟩ := bind_eq_ok.mp h
          split at h
          · exact hquiet ctx rfl _ h
          · split at h
            · exact hquiet ctx rfl _ h
            · obtain ⟨hashes, hhashes, hret⟩ := bind_eq_ok.mp h
              cases hret
              exact .arrived hcall hparse (mapError_eq_ok hhashes) hblock hread
    | version =>
        dsimp only at h
        split at h
        · exact hquiet ctx rfl _ h
        · cases h
          exact .quiet hread (by simp)
    | _ =>
        exact hquiet ctx rfl _ h

/-- What a step may do. -/
theorem step_effect
    (h : ctx.step i = .ok (ctx', es)) :
    PeerEffect ctx i ctx' es := by
  rcases hcall : i.call with
    ⟨type, msg⟩ | ⟨txHashes⟩ | ⟨known, callback⟩ | _ | ⟨txHashes, blocks⟩ | ⟨fromBlock⟩ |
      ⟨height⟩ | ⟨b⟩ | _ <;> rw [step, hcall] at h
  · dsimp only at h
    split at h
    · obtain ⟨⟨c, es', r⟩, haccept, hret⟩ := bind_eq_ok.mp h
      cases hret
      exact acceptMessage_effect (c := c) hcall rfl haccept
    · cases h
      exact .quiet rfl (by simp)
  · exact (ctx.sendInv_quiet txHashes).effect h
  · exact (ctx.sendMempool_quiet known callback).effect h
  · cases h
    exact .quiet rfl (by simp)
  · exact (ctx.sendGetdata_quiet txHashes blocks).effect h
  · exact (ctx.rerequestBlocks_quiet fromBlock).effect h
  · cases h
    exact .quiet rfl (by simp)
  · cases h
    exact .quiet rfl (by simp)
  · cases h
    exact .quiet rfl (by simp)

end PeerContext

/-! ## Runs -/

/-- No transaction of a block that arrives is known from an announcement of the
peer alone. -/
def PeerContext.KnownAccounted (ctx : PeerContext) (log : List PeerEvent) (i : PeerInput) :
    Prop :=
  ∀ msg block hashes, i.call = .message .merkleblock msg → i.env.parseBlock msg = some block →
    PeerContext.matchedHashes block = .ok hashes →
    ∀ h ∈ hashes, h ∈ ctx.knownTxHashes → Accounted log h

/-- The invariant of a connection: a block waits just if a transaction is
missing.  Strictly, what is not missing is accounted for. -/
structure Collecting (strict : Prop) (ctx : PeerContext) (log : List PeerEvent) : Prop where
  waits : ctx.currentBlock ≠ none ↔ ctx.currentBlockTxHashes ≠ []
  accounted : strict → ∀ block, ctx.currentBlock = some block →
    ∀ hashes, PeerContext.matchedHashes block = .ok hashes →
      ∀ h ∈ hashes, h ∈ ctx.currentBlockTxHashes ∨ Accounted log h
  ordered : strict → TxsFirst log

namespace Collecting

variable {strict : Prop} {ctx ctx' : PeerContext} {log es : List PeerEvent} {i : PeerInput}
variable {tx : RawTransaction} {block : PeerBlock} {hashes : List UInt256}

theorem of_awaits
    (h : Collecting strict ctx log)
    (hsame : ctx'.awaits = ctx.awaits) :
    Collecting strict ctx' log := by
  have hblock : ctx'.currentBlock = ctx.currentBlock := congrArg Prod.fst hsame
  have htxs : ctx'.currentBlockTxHashes = ctx.currentBlockTxHashes := congrArg Prod.snd hsame
  refine ⟨?_, ?_, h.ordered⟩
  · rw [hblock, htxs]
    exact h.waits
  · rw [hblock, htxs]
    exact h.accounted

theorem append_quiet
    (h : Collecting strict ctx log)
    (hes : ∀ block, .relayedBlock block ∉ es) :
    Collecting strict ctx (log ++ es) where
  waits := h.waits
  accounted hs block hblock hashes hhashes x hx :=
    (h.accounted hs block hblock hashes hhashes x hx).imp_right (fun ha => ha.append es)
  ordered hs := (h.ordered hs).append_quiet hes

/-- What is not the delivered hash is still awaited. -/
theorem mem_eraseLast
    {l : List UInt256} {h h' : UInt256}
    (hmem : h ∈ l)
    (hne : h ≠ h') :
    h ∈ KeyedList.eraseLast id l h' := by
  rw [KeyedList.eraseLast, List.mem_reverse, List.mem_eraseP_of_neg (by simpa using hne)]
  exact List.mem_reverse.mpr hmem

/-- A transaction is delivered. -/
theorem deliverTx
    (h : Collecting strict ctx log) (tx : RawTransaction) :
    Collecting strict (ctx.deliverTx tx).1 (log ++ (ctx.deliverTx tx).2) := by
  rw [PeerContext.deliverTx]
  split
  · exact h.append_quiet (by simp)
  · rename_i block hblock
    have hleft : strict → ∀ hashes, PeerContext.matchedHashes block = .ok hashes →
        ∀ x ∈ hashes, x ∈ KeyedList.eraseLast id ctx.currentBlockTxHashes tx.txHash ∨
          Accounted (log ++ [.relayedTx tx]) x := by
      intro hs hashes hhashes x hx
      rcases h.accounted hs block hblock hashes hhashes x hx with hwait | hacc
      · by_cases heq : x = tx.txHash
        · exact Or.inr (Or.inl ⟨tx, by simp, heq.symm⟩)
        · exact Or.inl (mem_eraseLast hwait heq)
      · exact Or.inr (hacc.append _)
    dsimp only
    split
    · rename_i hnil
      rw [hnil] at hleft
      have hcomplete : strict → Complete (log ++ [.relayedTx tx]) block := by
        intro hs hashes hhashes x hx
        exact (hleft hs hashes hhashes x hx).resolve_left List.not_mem_nil
      refine ⟨?_, ?_, ?_⟩
      · simp [hnil]
      · rintro - b ⟨⟩
      · intro hs
        have hpair : log ++ [.relayedTx tx, .relayedBlock block] =
            (log ++ [.relayedTx tx]) ++ [.relayedBlock block] := by simp
        rw [hpair]
        refine ((h.ordered hs).append_quiet (by simp)).append ?_
        intro before b after heq
        obtain ⟨rfl, rfl⟩ := single_block heq
        rw [List.append_nil]
        exact hcomplete hs
    · rename_i hsome
      refine ⟨?_, ?_, fun hs => (h.ordered hs).append_quiet (by simp)⟩
      · simp [hblock, hsome]
      · intro hs b hb
        rw [hblock] at hb
        cases hb
        exact hleft hs

/-- A block arrives while none waits. -/
theorem takeBlock
    (h : Collecting strict ctx log)
    (hnone : ctx.currentBlock = none)
    (hhashes : PeerContext.matchedHashes block = .ok hashes)
    (hknown : strict → ∀ x ∈ hashes, x ∈ ctx.knownTxHashes → Accounted log x) :
    Collecting strict (ctx.takeBlock block hashes).1 (log ++ (ctx.takeBlock block hashes).2) := by
  have hnil : ctx.currentBlockTxHashes = [] := by
    by_contra hne
    exact h.waits.mpr hne hnone
  have hleft : strict → ∀ hashes', PeerContext.matchedHashes block = .ok hashes' →
      ∀ x ∈ hashes', x ∈ hashes.reverse.filter (· ∉ ctx.knownTxHashes) ∨ Accounted log x := by
    intro hs hashes' hhashes' x hx
    rw [hhashes] at hhashes'
    cases hhashes'
    by_cases hx' : x ∈ ctx.knownTxHashes
    · exact Or.inr (hknown hs x hx hx')
    · left
      rw [List.mem_filter, List.mem_reverse]
      exact ⟨hx, by simpa using hx'⟩
  rw [PeerContext.takeBlock, hnil, List.nil_append]
  split
  · rename_i hempty
    rw [hempty] at hleft ⊢
    refine ⟨?_, ?_, ?_⟩
    · simp [hnone]
    · intro hs b hb
      rw [hnone] at hb
      cases hb
    · intro hs
      refine (h.ordered hs).append ?_
      intro before b after heq
      obtain ⟨rfl, rfl⟩ := single_block heq
      rw [List.append_nil]
      intro hashes' hhashes' x hx
      exact (hleft hs hashes' hhashes' x hx).resolve_left List.not_mem_nil
  · rename_i hsome
    rw [List.append_nil]
    refine ⟨?_, ?_, h.ordered⟩
    · exact ⟨fun _ => hsome, fun _ => Option.some_ne_none block⟩
    · intro hs b hb
      cases hb
      exact hleft hs

/-- One step. -/
theorem step
    (h : Collecting strict ctx log)
    (hknown : strict → ctx.KnownAccounted log i)
    (hs : ctx.step i = .ok (ctx', es)) :
    Collecting strict ctx' (log ++ es) := by
  cases PeerContext.step_effect hs with
  | quiet hsame hes =>
      exact (h.of_awaits hsame).append_quiet hes
  | dropped hsame =>
      have hblock : ctx'.currentBlock = none := congrArg Prod.fst hsame
      have htxs : ctx'.currentBlockTxHashes = [] := congrArg Prod.snd hsame
      rw [List.append_nil]
      refine ⟨by simp [hblock, htxs], ?_, h.ordered⟩
      intro hs b hb
      rw [hblock] at hb
      cases hb
  | delivered hsame =>
      exact (h.deliverTx _).of_awaits hsame
  | arrived hcall hparse hhashes hnone hsame =>
      refine Collecting.of_awaits (h.takeBlock hnone hhashes ?_) hsame
      intro hs x hx hxknown
      exact hknown hs _ _ _ hcall hparse hhashes x hx hxknown

end Collecting

/-- **Blocks behind their transactions.** On every connection a block waits just
if it waits for some transaction.  Where no matched transaction of an arriving
block is known from an announcement alone, each block is handed over when all
its transactions have been delivered or put into the known set locally. -/
theorem block_after_transactions
    {is : List PeerInput} {ctx : PeerContext} {log : List PeerEvent}
    (hrun : run PeerContext.step {} is = .ok (ctx, log)) :
    (ctx.currentBlock ≠ none ↔ ctx.currentBlockTxHashes ≠ []) ∧
      ((∀ pre i post ctx₁ log₁, is = pre ++ i :: post →
        run PeerContext.step {} pre = .ok (ctx₁, log₁) → ctx₁.KnownAccounted log₁ i) →
        TxsFirst log) := by
  have hcollecting : ∀ strict : Prop,
      (strict → ∀ pre i post ctx₁ log₁, is = pre ++ i :: post →
        run PeerContext.step {} pre = .ok (ctx₁, log₁) → ctx₁.KnownAccounted log₁ i) →
      Collecting strict ctx log := by
    intro strict hknown
    induction is using List.reverseRecOn generalizing ctx log with
    | nil =>
        cases hrun
        refine ⟨by simp, ?_, ?_⟩
        · rintro - block ⟨⟩
        · rintro - before block after heq
          simp at heq
    | append_singleton is i ih =>
        obtain ⟨ctx₁, log₁, es, hpre, hstep, rfl⟩ := run_concat_ok hrun
        have hbefore : Collecting strict ctx₁ log₁ := by
          refine ih hpre ?_
          rintro hs pre j post ctx₂ log₂ rfl hrun₂
          exact hknown hs pre j (post ++ [i]) ctx₂ log₂ (by simp) hrun₂
        exact hbefore.step (fun hs => hknown hs is i [] ctx₁ log₁ rfl hpre) hstep
  refine ⟨(hcollecting False False.elim).waits, ?_⟩
  intro hknown
  exact (hcollecting True (fun _ => hknown)).ordered trivial

section Counterexample

/-- A block with one transaction, which it matches. -/
def pairedBlock : PeerBlock where
  blockHash := 0
  merkleRoot := 7
  timestamp := 1500000000
  target := BRMerkleBlock.maxProofOfWork
  totalTx := 1
  hashes := .ofList [7] (by norm_num)
  flags := .ofList [1] (by norm_num)

/-- The merkleblock message of the block. -/
def pairedMessage : List UInt8 :=
  LittleEndian.bytes 4 2 ++ hashBytes 5 ++ hashBytes 7 ++ LittleEndian.bytes 4 1500000000 ++
    LittleEndian.bytes 4 BRMerkleBlock.maxProofOfWork.toNat ++ LittleEndian.bytes 4 0 ++
    LittleEndian.bytes 4 1 ++ [1] ++ hashBytes 7 ++ [1, 1]

def pairedEnv : PeerEnv where
  now := 1500000000
  codec := ⟨id, id, id⟩
  sha256d _ := 0
  parseBlock _ := some pairedBlock
  acceptVersion _ := none
  accepts _ _ := true

/-- The peer manager loads a filter, the transaction becomes known and the
block arrives. -/
def pairedRun (known : PeerCall) : List PeerInput :=
  [⟨pairedEnv, .sendFilterload⟩, ⟨pairedEnv, known⟩,
    ⟨pairedEnv, .message .merkleblock pairedMessage⟩]

/-- An inventory with the transaction. -/
def pairedInv : PeerCall :=
  .message .inv ([1] ++ LittleEndian.bytes 4 invTx ++ hashBytes 7)

/-- The wallet announces the transaction itself. -/
theorem block_after_announced :
    ∃ ctx log, run PeerContext.step {} (pairedRun (.sendInv [7])) = .ok (ctx, log) ∧
      log = [.sentFilterload, .sentInv [7], .relayedBlock pairedBlock] ∧ TxsFirst log := by
  obtain ⟨ctx, log, hrun, hlog⟩ :
      ∃ ctx log, run PeerContext.step {} (pairedRun (.sendInv [7])) = .ok (ctx, log) ∧
        log = [.sentFilterload, .sentInv [7], .relayedBlock pairedBlock] :=
    ⟨_, _, rfl, rfl⟩
  refine ⟨ctx, log, hrun, hlog, (block_after_transactions hrun).2 ?_⟩
  intro pre i post ctx₁ log₁ heq hpre msg block hashes hcall hparse hhashes h hmem _
  -- only the last call is a message
  rcases pre with _ | ⟨a, _ | ⟨b, pre⟩⟩
  · cases heq
    cases hcall
  · cases heq
    cases hcall
  · obtain rfl : pre = [] := by
      have hlen := congrArg List.length heq
      simp [pairedRun] at hlen
      exact List.eq_nil_of_length_eq_zero (by omega)
    simp only [pairedRun, List.cons_append, List.nil_append, List.cons.injEq] at heq
    obtain ⟨rfl, rfl, rfl, -⟩ := heq
    have hlog₁ : log₁ = [.sentFilterload, .sentInv [7]] :=
      (congrArg Prod.snd (Except.ok.inj hpre)).symm
    have hblock : pairedBlock = block := Option.some.inj hparse
    subst hlog₁ hblock
    have hseven : PeerContext.matchedHashes pairedBlock = .ok [7] := rfl
    obtain rfl : [7] = hashes := Except.ok.inj (hseven.symm.trans hhashes)
    exact Or.inr ⟨[7], Or.inl (by simp), hmem⟩

/-- The peer announces the transaction; the block is handed over without it. -/
theorem not_block_after_transactions :
    ∃ ctx log, run PeerContext.step {} (pairedRun pairedInv) = .ok (ctx, log) ∧
      log = [.sentFilterload, .sentGetdata [7] [], .relayedBlock pairedBlock] ∧
      ¬ TxsFirst log := by
  refine ⟨_, _, rfl, rfl, ?_⟩
  intro h
  rcases h [.sentFilterload, .sentGetdata [7] []] pairedBlock [] rfl [7] rfl 7
    (List.mem_singleton_self 7) with ⟨tx, htx, -⟩ | ⟨hashes, hsent, -⟩
  · simp at htx
  · simp at hsent

end Counterexample

end BreadwalletCore
