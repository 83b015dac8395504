import BreadwalletCore.Transaction.Inputs

/-!
# Signing

`BRTransactionSign`.  It overwrites the inputs one after another while the data
of later inputs is still to be hashed.  No part of that data depends on a
signature, so the loop has a closed form: every input is signed for the
transaction the loop started with, and equally for the one it ends with.
-/

namespace BreadwalletCore

/-- The functions of `BRKey.c` that signing uses.  A key without an address has
the empty one.  `BRKeySign` is given room for 72 bytes, and a public key has 33
or 65 bytes, or none if the secret is not valid. -/
structure KeyOps (Key : Type) where
  address : Key → Address
  pubKey : Key → List UInt8
  sign : Key → UInt256 → List UInt8
  verify : Key → UInt256 → List UInt8 → Bool
  length_pubKey : ∀ key, (pubKey key).length ≤ 65
  length_sign : ∀ key md, (sign key md).length ≤ 72

namespace RawTransaction

section Definitions

variable {Key : Type} (codec : ScriptCodec) (ops : KeyOps Key) (sha256d : List UInt8 → UInt256)

/-- The first key with the address of the script, if the script has one. -/
def signingKey (keys : List Key) (input : BRTxInput) : Option Key :=
  let script := input.script.getD []
  if isScriptPubKey script then
    keys.find? (fun key => ops.address key = codec.addressFromScriptPubKey script)
  else none

/-- The second last element is `OP_EQUALVERIFY`. -/
def isPayToPubKeyHash (script : List UInt8) : Bool :=
  let elems := scriptOpcodes script
  2 ≤ elems.length ∧ elems.getD (elems.length - 2) 0 = opEqualVerify

/-- What is written in the place of the signature. -/
def scriptSig (key : Key) (script signature : List UInt8) : List UInt8 :=
  if isPayToPubKeyHash script then
    scriptPushData signature ++ scriptPushData (ops.pubKey key)
  else scriptPushData signature

/-- The hash an input is signed for. -/
def digest (tx : RawTransaction) (i : ℕ) (hashType : UInt32) : UInt256 :=
  sha256d (tx.transactionData sha256d (some i) hashType)

/-- The body of the loop of `BRTransactionSign`. -/
def signInput (forkId : UInt32) (keys : List Key) (tx : RawTransaction) (i : ℕ) :
    Except MemoryFault RawTransaction :=
  match tx.inputs[i]? with
  | none => pure tx
  | some input =>
      match signingKey codec ops keys input with
      | none => pure tx
      | some key => do
          let hashType := forkId ||| sigHashAll
          let sig := ops.sign key (digest sha256d tx i hashType) ++ [hashType.toUInt8]
          let input ← input.setSignature codec
            (some (scriptSig ops key (input.script.getD []) sig))
          pure { tx with inputs := tx.inputs.set i input }

/-- `BRTransactionSign`, with the transaction it leaves behind. -/
def sign (forkId : UInt32) (keys : List Key) (tx : RawTransaction) :
    Except MemoryFault (RawTransaction × Bool) := do
  let tx ← (List.range tx.inputs.length).foldlM (signInput codec ops sha256d forkId keys) tx
  if tx.isSigned then
    pure ({ tx with txHash := sha256d (tx.transactionData sha256d none 0) }, true)
  else pure (tx, false)

end Definitions

/-! ## The data of an input does not depend on signatures -/

/-- An input without what signing it changes. -/
def unsigned (input : BRTxInput) : BRTxInput :=
  { input with address := [], signature := none, strayPointer := false }

theorem inputDataAt_unsigned
    (n : ℕ) (sigHash : UInt32) (i : ℕ) (input : BRTxInput) :
    inputDataAt (some n) sigHash i (unsigned input) = inputDataAt (some n) sigHash i input := by
  by_cases h : n = i <;> simp [inputDataAt, unsigned, txInputData, h]

theorem legacyData_unsigned
    (tx : RawTransaction) (n : ℕ) (hashType : UInt32) :
    { tx with inputs := tx.inputs.map unsigned }.legacyData (some n) hashType =
      tx.legacyData (some n) hashType := by
  have hidx := mapIdx_map_eq (inputDataAt_unsigned n (hashType &&& 0x1f)) tx.inputs
  simp only [legacyData, outputSection, outputData, outputDataAt, List.length_map, hidx,
    Option.bind_some, List.getElem?_map]
  cases tx.inputs[n]? <;> rfl

theorem witnessData_unsigned
    (sha256d : List UInt8 → UInt256) (tx : RawTransaction) (n : ℕ) (hashType : UInt32) :
    { tx with inputs := tx.inputs.map unsigned }.witnessData sha256d (some n) hashType =
      tx.witnessData sha256d (some n) hashType := by
  simp only [witnessData, outputData, outputDataAt, Option.bind_some, List.getElem?_map,
    List.flatMap_map]
  cases tx.inputs[n]? <;> rfl

/-- Whatever the hash type, the data of an input is that of the transaction
without its signatures. -/
theorem digest_unsigned
    (sha256d : List UInt8 → UInt256) (tx : RawTransaction) (n : ℕ) (hashType : UInt32) :
    digest sha256d { tx with inputs := tx.inputs.map unsigned } n hashType =
      digest sha256d tx n hashType := by
  rw [digest, digest, transactionData, transactionData, legacyData_unsigned, witnessData_unsigned]

/-! ## The loop -/

section Loop

variable {Key : Type} (codec : ScriptCodec) (ops : KeyOps Key) (sha256d : List UInt8 → UInt256)
variable (forkId : UInt32) (keys : List Key)

/-- The signature of input `i` of `tx`. -/
def signatureFor (tx : RawTransaction) (i : ℕ) (key : Key) : List UInt8 :=
  ops.sign key (digest sha256d tx i (forkId ||| sigHashAll))

/-- Input `i` of `tx`, signed if there is a key for it. -/
def signedInput (tx : RawTransaction) (i : ℕ) (input : BRTxInput) : BRTxInput :=
  match signingKey codec ops keys input with
  | none => input
  | some key =>
      let signature := scriptSig ops key (input.script.getD [])
        (signatureFor ops sha256d forkId tx i key ++ [(forkId ||| sigHashAll).toUInt8])
      { input with
        signature := some signature
        address :=
          if input.address = [] then codec.addressFromScriptSig signature else input.address }

/-- Signing an input frees its old signature. -/
def CanSign (input : BRTxInput) : Prop :=
  (signingKey codec ops keys input).isSome → input.strayPointer = false

theorem unsigned_signedInput
    (tx : RawTransaction) (i : ℕ) (input : BRTxInput) :
    unsigned (signedInput codec ops sha256d forkId keys tx i input) = unsigned input := by
  rw [signedInput]
  split <;> rfl

/-- One round of the loop. -/
theorem signInput_eq_ok_iff
    {tx tx' : RawTransaction} {i : ℕ} :
    signInput codec ops sha256d forkId keys tx i = .ok tx' ↔
      (∀ input, tx.inputs[i]? = some input → CanSign codec ops keys input) ∧
        tx' = { tx with
          inputs := tx.inputs.modify i (signedInput codec ops sha256d forkId keys tx i) } := by
  have hpure : ∀ inputs, inputs = tx.inputs → ((Except.ok tx : Except MemoryFault _) = .ok tx' ↔
      tx' = { tx with inputs := inputs }) := by
    rintro inputs rfl
    exact ⟨fun h => by cases h; rfl, fun h => by rw [h]⟩
  rw [signInput, List.modify_eq_set_getElem?]
  cases hget : tx.inputs[i]? with
  | none =>
      refine (hpure tx.inputs rfl).trans (and_iff_right ?_).symm
      intro input h
      cases h
  | some input =>
      obtain ⟨hlt, hinput⟩ := List.getElem?_eq_some_iff.mp hget
      have hmodify : ((fun a => tx.inputs.set i
          (signedInput codec ops sha256d forkId keys tx i a)) <$> some input).getD tx.inputs =
            tx.inputs.set i (signedInput codec ops sha256d forkId keys tx i input) := by
        rfl
      rw [hmodify]
      simp only [Option.some.injEq, forall_eq']
      cases hkey : signingKey codec ops keys input with
      | none =>
          have hset : tx.inputs.set i (signedInput codec ops sha256d forkId keys tx i input) =
              tx.inputs := by
            simp only [signedInput, hkey]
            rw [← hinput, List.set_getElem_self]
          refine (hpure _ hset).trans (and_iff_right ?_).symm
          simp [CanSign, hkey]
      | some key =>
          have hcan : CanSign codec ops keys input ↔ input.strayPointer = false := by
            simp [CanSign, hkey]
          simp only [Machine.bind_eq_ok, BRTxInput.setSignature_eq_ok_iff, hcan, signedInput, hkey]
          constructor
          · rintro ⟨input', ⟨hstray, rfl⟩, hset⟩
            cases hset
            exact ⟨hstray, rfl⟩
          · rintro ⟨hstray, rfl⟩
            exact ⟨_, ⟨hstray, rfl⟩, rfl⟩

/-- The transaction after `n` rounds. -/
def signedUpTo (n : ℕ) (tx : RawTransaction) : RawTransaction :=
  { tx with
    inputs := tx.inputs.mapIdx (fun i input =>
      if i < n then signedInput codec ops sha256d forkId keys tx i input else input) }

theorem digest_signedUpTo
    (n : ℕ) (tx : RawTransaction) (i : ℕ) (hashType : UInt32) :
    digest sha256d (signedUpTo codec ops sha256d forkId keys n tx) i hashType =
      digest sha256d tx i hashType := by
  have hinputs : (signedUpTo codec ops sha256d forkId keys n tx).inputs.map unsigned =
      tx.inputs.map unsigned := by
    refine List.ext_getElem? (fun j => ?_)
    rw [signedUpTo, List.getElem?_map, List.getElem?_mapIdx, List.getElem?_map, Option.map_map]
    refine congrArg (fun g => Option.map g tx.inputs[j]?) (funext (fun input => ?_))
    rw [Function.comp_apply]
    split
    · exact unsigned_signedInput codec ops sha256d forkId keys tx j input
    · rfl
  rw [← digest_unsigned, hinputs]
  exact digest_unsigned sha256d tx i hashType

/-- The loop signs the first `n` inputs for the transaction it started with. -/
theorem signLoop_eq_ok_iff
    {tx tx' : RawTransaction} (n : ℕ) :
    (List.range n).foldlM (signInput codec ops sha256d forkId keys) tx = .ok tx' ↔
      (∀ i < n, ∀ input, tx.inputs[i]? = some input → CanSign codec ops keys input) ∧
        tx' = signedUpTo codec ops sha256d forkId keys n tx := by
  induction n generalizing tx' with
  | zero =>
      have hzero : signedUpTo codec ops sha256d forkId keys 0 tx = tx := by
        have hid : tx.inputs.mapIdx (fun _ input => input) = tx.inputs :=
          List.ext_getElem? (fun i => by rw [List.getElem?_mapIdx, Option.map_id'])
        simp [signedUpTo, hid]
      rw [hzero]
      constructor
      · intro h
        cases h
        simp
      · rintro ⟨-, rfl⟩
        rfl
  | succ n ih =>
      have hget : (signedUpTo codec ops sha256d forkId keys n tx).inputs[n]? = tx.inputs[n]? := by
        simp [signedUpTo, List.getElem?_mapIdx]
      have hstep : ∀ input, signedInput codec ops sha256d forkId keys
          (signedUpTo codec ops sha256d forkId keys n tx) n input =
            signedInput codec ops sha256d forkId keys tx n input := by
        intro input
        simp only [signedInput, signatureFor, digest_signedUpTo]
      have hnext : { signedUpTo codec ops sha256d forkId keys n tx with
          inputs := (signedUpTo codec ops sha256d forkId keys n tx).inputs.modify n
            (signedInput codec ops sha256d forkId keys
              (signedUpTo codec ops sha256d forkId keys n tx) n) } =
            signedUpTo codec ops sha256d forkId keys (n + 1) tx := by
        rw [funext hstep]
        simp only [signedUpTo, RawTransaction.mk.injEq, true_and, and_true]
        refine List.ext_getElem? (fun j => ?_)
        rw [List.getElem?_modify, List.getElem?_mapIdx, List.getElem?_mapIdx]
        rcases Nat.lt_trichotomy j n with hj | rfl | hj
        · simp [hj, show n ≠ j by omega, show j < n + 1 by omega]
        · simp
        · simp [show ¬ j < n by omega, show n ≠ j by omega, show ¬ j < n + 1 by omega]
      rw [List.range_succ, List.foldlM_append, Machine.bind_eq_ok]
      constructor
      · rintro ⟨mid, hmid, hlast⟩
        obtain ⟨hcan, rfl⟩ := ih.mp hmid
        obtain ⟨last, hlast, hpure⟩ := Machine.bind_eq_ok.mp hlast
        cases hpure
        obtain ⟨hcanLast, rfl⟩ := (signInput_eq_ok_iff codec ops sha256d forkId keys).mp hlast
        refine ⟨fun i hi input hinput => ?_, hnext⟩
        rcases Nat.lt_succ_iff_lt_or_eq.mp hi with hi | rfl
        · exact hcan i hi input hinput
        · exact hcanLast input (hget.trans hinput)
      · rintro ⟨hcan, rfl⟩
        refine ⟨_, ih.mpr ⟨fun i hi => hcan i (by omega), rfl⟩, ?_⟩
        have hlast := (signInput_eq_ok_iff codec ops sha256d forkId keys).mpr
          ⟨fun input hinput => hcan n (by omega) input (hget.symm.trans hinput), rfl⟩
        rw [List.foldlM_cons, hlast, Machine.ok_bind, hnext]
        rfl

/-- The transaction with every input signed that has a key. -/
def signedAll (tx : RawTransaction) : RawTransaction :=
  { tx with inputs := tx.inputs.mapIdx (signedInput codec ops sha256d forkId keys tx) }

theorem signedUpTo_length
    (tx : RawTransaction) :
    signedUpTo codec ops sha256d forkId keys tx.inputs.length tx =
      signedAll codec ops sha256d forkId keys tx := by
  simp only [signedUpTo, signedAll, RawTransaction.mk.injEq, true_and, and_true]
  refine List.ext_getElem? (fun j => ?_)
  rw [List.getElem?_mapIdx, List.getElem?_mapIdx]
  cases hget : tx.inputs[j]? with
  | none =>
      rfl
  | some input =>
      obtain ⟨hlt, -⟩ := List.getElem?_eq_some_iff.mp hget
      simp [hlt]

theorem digest_signedAll
    (tx : RawTransaction) (i : ℕ) (hashType : UInt32) :
    digest sha256d (signedAll codec ops sha256d forkId keys tx) i hashType =
      digest sha256d tx i hashType := by
  rw [← signedUpTo_length]
  exact digest_signedUpTo codec ops sha256d forkId keys _ tx i hashType

/-- `BRTransactionSign` returns unless it frees a stray pointer, and then every
input is signed for the transaction it was given. -/
theorem sign_eq_ok_iff
    {tx tx' : RawTransaction} {done : Bool} :
    sign codec ops sha256d forkId keys tx = .ok (tx', done) ↔
      (∀ input ∈ tx.inputs, CanSign codec ops keys input) ∧
        done = (signedAll codec ops sha256d forkId keys tx).isSigned ∧
        tx' = { signedAll codec ops sha256d forkId keys tx with
          txHash :=
            if done then
              sha256d ((signedAll codec ops sha256d forkId keys tx).transactionData sha256d none 0)
            else tx.txHash } := by
  have hcan : (∀ i < tx.inputs.length, ∀ input, tx.inputs[i]? = some input →
      CanSign codec ops keys input) ↔ ∀ input ∈ tx.inputs, CanSign codec ops keys input := by
    constructor
    · intro h input hinput
      obtain ⟨i, hi, rfl⟩ := List.mem_iff_getElem.mp hinput
      exact h i hi _ (List.getElem?_eq_getElem hi)
    · intro h i _ input hinput
      exact h input (List.mem_of_getElem? hinput)
  simp only [sign, Machine.bind_eq_ok, signLoop_eq_ok_iff, hcan, signedUpTo_length]
  generalize hall : signedAll codec ops sha256d forkId keys tx = last
  have hhash : last.txHash = tx.txHash := by rw [← hall]; rfl
  cases hsigned : last.isSigned with
  | true =>
      constructor
      · rintro ⟨_, ⟨h, rfl⟩, hpure⟩
        rw [hsigned] at hpure
        cases hpure
        exact ⟨h, rfl, rfl⟩
      · rintro ⟨h, rfl, rfl⟩
        refine ⟨last, ⟨h, rfl⟩, ?_⟩
        rw [hsigned]
        rfl
  | false =>
      constructor
      · rintro ⟨_, ⟨h, rfl⟩, hpure⟩
        rw [hsigned] at hpure
        cases hpure
        refine ⟨h, rfl, ?_⟩
        rw [← hhash]
        rfl
      · rintro ⟨h, rfl, rfl⟩
        refine ⟨last, ⟨h, rfl⟩, ?_⟩
        rw [hsigned, ← hhash]
        rfl

end Loop

/-! ## The data for `SIGHASH_ALL` -/

/-- An input of the reference serialization, with a given script. -/
def referenceInput (input : BRTxInput) (script : List UInt8) : List UInt8 :=
  hashBytes input.txHash ++ LittleEndian.bytes 4 input.index.toNat ++
    varIntSet script.length ++ script ++ LittleEndian.bytes 4 input.sequence.toNat

/-- The reference serialization for input `i`: its script, no script for the
other inputs, all outputs, the lock time and the hash type. -/
def referenceData (tx : RawTransaction) (i : ℕ) : List UInt8 :=
  LittleEndian.bytes 4 tx.version.toNat ++ varIntSet tx.inputs.length ++
    (tx.inputs.mapIdx (fun j input =>
      referenceInput input (if j = i then input.script.getD [] else []))).flatten ++
    varIntSet tx.outputs.length ++ tx.outputs.flatMap txOutputData ++
    LittleEndian.bytes 4 tx.lockTime.toNat ++ LittleEndian.bytes 4 sigHashAll.toNat

/-- An input without its signature and its amount. -/
def bare (input : BRTxInput) : BRTxInput :=
  { input with amount := 0, signature := none, strayPointer := false }

/-- The transactions differ only in the signatures and amounts of inputs. -/
def DifferInSpends (tx tx' : RawTransaction) : Prop :=
  tx'.inputs.map bare = tx.inputs.map bare ∧ { tx' with inputs := tx.inputs } = tx

theorem transactionData_sigHashAll
    (sha256d : List UInt8 → UInt256) (tx : RawTransaction) (i : ℕ) :
    tx.transactionData sha256d (some i) sigHashAll = tx.referenceData i := by
  have hinput : inputDataAt (some i) (sigHashAll &&& 0x1f) = fun j input =>
      referenceInput input (if j = i then input.script.getD [] else []) := by
    funext j input
    by_cases h : j = i
    · simp [inputDataAt, txInputData, referenceInput, h]
    · have hne : i ≠ j := fun heq => h heq.symm
      have hall : ¬ (sigHashAll &&& 0x1f = sigHashNone ∨ sigHashAll &&& 0x1f = sigHashSingle) := by
        decide
      simp [inputDataAt, txInputData, referenceInput, h, hne, hall]
  have hsection : tx.outputSection (some i) (sigHashAll &&& 0x1f) =
      varIntSet tx.outputs.length ++ tx.outputData := by
    rw [outputSection, if_pos (by decide)]
  rw [transactionData_legacy sha256d tx (some i) (by decide)]
  simp only [legacyData, referenceData]
  rw [if_neg (by decide), hinput, hsection, if_pos (by simp), outputData]
  simp only [List.append_assoc]

theorem referenceData_congr
    {tx tx' : RawTransaction}
    (h : DifferInSpends tx tx')
    (i : ℕ) :
    tx'.referenceData i = tx.referenceData i := by
  obtain ⟨hinputs, hrest⟩ := h
  have hbare := @mapIdx_map_eq _ _ (fun j input =>
    referenceInput input (if j = i then input.script.getD [] else [])) bare (fun _ _ => rfl)
  have hlength : tx'.inputs.length = tx.inputs.length := by
    simpa using congrArg List.length hinputs
  rw [← hrest]
  simp only [referenceData]
  rw [← hbare tx'.inputs, ← hbare tx.inputs, hinputs, hlength]

section Independence

variable {Key : Type} (codec : ScriptCodec) (ops : KeyOps Key) (sha256d : List UInt8 → UInt256)

/-- The key signs: what it writes is verified by it. -/
def Signs (key : Key) : Prop :=
  ∀ md, ops.verify key md (ops.sign key md) = true

/-- Every input of `before` with a key carries in `tx` the signature of that
key for `tx`; the other inputs are left alone. -/
def SignedFor (keys : List Key) (before tx : RawTransaction) : Prop :=
  tx.inputs.length = before.inputs.length ∧
    ∀ (i : ℕ) (old input : BRTxInput), before.inputs[i]? = some old → tx.inputs[i]? = some input →
      match signingKey codec ops keys old with
      | none => input = old
      | some key =>
          ∃ sig, sig = ops.sign key (digest sha256d tx i sigHashAll) ∧
            input.script = old.script ∧
            input.signature =
              some (scriptSig ops key (old.script.getD []) (sig ++ [sigHashAll.toUInt8])) ∧
            (Signs ops key → ops.verify key (digest sha256d tx i sigHashAll) sig = true)

theorem signedFor_signedAll
    (keys : List Key) (tx : RawTransaction) (txHash : UInt256) :
    SignedFor codec ops sha256d keys tx
      { signedAll codec ops sha256d 0 keys tx with txHash := txHash } := by
  refine ⟨List.length_mapIdx, fun i old input hold hinput => ?_⟩
  have hdigest : digest sha256d { signedAll codec ops sha256d 0 keys tx with txHash := txHash } i
      sigHashAll = digest sha256d tx i sigHashAll :=
    digest_signedAll codec ops sha256d 0 keys tx i sigHashAll
  rw [hdigest]
  simp only [signedAll, List.getElem?_mapIdx, hold, Option.map_some, Option.some.injEq] at hinput
  rw [signedInput] at hinput
  cases hkey : signingKey codec ops keys old with
  | none =>
      rw [hkey] at hinput
      exact hinput.symm
  | some key =>
      rw [hkey] at hinput
      subst hinput
      exact ⟨_, rfl, rfl, rfl, fun hsigns => hsigns _⟩

/-- **Signing order.**  The data signed with `SIGHASH_ALL` does not depend on
signatures and amounts and is the reference serialization.  Signing therefore
returns whenever the signatures it replaces can be freed, and every signature
it has written is one for the transaction it leaves behind. -/
theorem signing_order_independent :
    (∀ (tx tx' : RawTransaction) (i : ℕ), DifferInSpends tx tx' →
        tx'.transactionData sha256d (some i) sigHashAll =
          tx.transactionData sha256d (some i) sigHashAll) ∧
      (∀ (tx : RawTransaction) (i : ℕ),
        tx.transactionData sha256d (some i) sigHashAll = tx.referenceData i) ∧
      (∀ (keys : List Key) (tx : RawTransaction),
        (∃ r, sign codec ops sha256d 0 keys tx = .ok r) ↔
          ∀ input ∈ tx.inputs, CanSign codec ops keys input) ∧
      ∀ (keys : List Key) (tx tx' : RawTransaction) (done : Bool),
        sign codec ops sha256d 0 keys tx = .ok (tx', done) →
          SignedFor codec ops sha256d keys tx tx' := by
  refine ⟨?_, transactionData_sigHashAll sha256d, ?_, ?_⟩
  · intro tx tx' i h
    rw [transactionData_sigHashAll, transactionData_sigHashAll, referenceData_congr h]
  · intro keys tx
    constructor
    · rintro ⟨⟨tx', done⟩, h⟩
      exact ((sign_eq_ok_iff codec ops sha256d 0 keys).mp h).1
    · intro hcan
      exact ⟨_, (sign_eq_ok_iff codec ops sha256d 0 keys).mpr ⟨hcan, rfl, rfl⟩⟩
  · intro keys tx tx' done h
    obtain ⟨-, -, rfl⟩ := (sign_eq_ok_iff codec ops sha256d 0 keys).mp h
    exact signedFor_signedAll codec ops sha256d keys tx _

/-- A toy scheme: a key has one byte, which is its address, and signs with it
and the low byte of the hash. -/
def toyOps : KeyOps UInt8 where
  address key := [key]
  pubKey key := List.replicate 33 key
  sign key md := [key, UInt8.ofNat md.toNat]
  verify key md sig := sig = [key, UInt8.ofNat md.toNat]
  length_pubKey _ := by simp
  length_sign _ _ := by simp

/-- The address is the first byte of the pubkey hash. -/
def toyCodec : ScriptCodec where
  addressFromScriptPubKey script := [script.getD 3 0]
  addressFromScriptSig _ := []
  addressScriptPubKey address :=
    [opDup, opHash160, 20] ++ List.replicate 20 (address.headD 0) ++ [opEqualVerify, opCheckSig]

/-- Two outputs paid to the keys `7` and `9`, to be spent together. -/
def toySpend : RawTransaction where
  txHash := 0
  inputs :=
    [{ txHash := 1, index := 0, amount := 5, script := some (toyCodec.addressScriptPubKey [7]),
       signature := none, sequence := txinSequence },
     { txHash := 2, index := 1, amount := 6, script := some (toyCodec.addressScriptPubKey [9]),
       signature := none, sequence := txinSequence }]
  outputs := [{ address := [8], amount := 10, script := toyCodec.addressScriptPubKey [8] }]

/-- A checksum in the place of the hash. -/
def toyHash (data : List UInt8) : UInt256 :=
  BitVec.ofNat 256 data.sum.toNat

/-- Both inputs are signed for the transaction that is left behind. -/
theorem toySpend_signed :
    ∃ tx, sign toyCodec toyOps toyHash 0 [7, 9] toySpend = .ok (tx, true) ∧
      SignedFor toyCodec toyOps toyHash [7, 9] toySpend tx := by
  obtain ⟨-, -, hreturns, hsigned⟩ := signing_order_independent toyCodec toyOps toyHash
  obtain ⟨⟨tx, done⟩, h⟩ := (hreturns [7, 9] toySpend).mpr (by
    intro input hinput _
    rcases List.mem_cons.mp hinput with rfl | hinput
    · rfl
    · rw [List.mem_singleton.mp hinput])
  have hdone : done = (signedAll toyCodec toyOps toyHash 0 [7, 9] toySpend).isSigned :=
    ((sign_eq_ok_iff toyCodec toyOps toyHash 0 [7, 9]).mp h).2.1
  have htrue : (signedAll toyCodec toyOps toyHash 0 [7, 9] toySpend).isSigned = true := by
    decide +kernel
  rw [hdone, htrue] at h
  exact ⟨tx, h, hsigned _ _ _ _ h⟩

end Independence

end RawTransaction
end BreadwalletCore
