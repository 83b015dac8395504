import BreadwalletCore.Data.Ancestry
import BreadwalletCore.Mnemonic.Seed
import BreadwalletCore.Address.Exact
import BreadwalletCore.MerkleBlock.Soundness
import BreadwalletCore.MerkleBlock.Difficulty
import BreadwalletCore.UInt256.Divide
import BreadwalletCore.MerkleBlock.Gravity
import BreadwalletCore.MerkleBlock.Termination
import BreadwalletCore.MerkleBlock.Access
import BreadwalletCore.MerkleBlock.Codec
import BreadwalletCore.PeerManager.FilterMatch
import BreadwalletCore.Wallet.UtxoSpec
import BreadwalletCore.Wallet.ChainHeight
import BreadwalletCore.Wallet.Validity
import BreadwalletCore.Wallet.Registration
import BreadwalletCore.Transaction.Identity
import BreadwalletCore.Wallet.MaxAmount
import BreadwalletCore.PeerManager.MainChain
import BreadwalletCore.PeerManager.Faults
import BreadwalletCore.PeerManager.RelayCounts
import BreadwalletCore.Peer.BlockOrder
import BreadwalletCore.Peer.Bounds
import BreadwalletCore.Peer.Handshake
import BreadwalletCore.Peer.Callbacks
import BreadwalletCore.PeerManager.Headers
import BreadwalletCore.Wallet.SigningKeys
import BreadwalletCore.Data.ProbeTable
import BreadwalletCore.Set
import BreadwalletCore.Set.Table
import BreadwalletCore.Set.Combine
import BreadwalletCore.Set.Refinement
import BreadwalletCore.PaymentProtocol.ProtoBuf
import BreadwalletCore.Data.WireFormat
import BreadwalletCore.Crypto
import BreadwalletCore.CoreDatabase
import BreadwalletCore.WalletManager.SpendingLimit
import BreadwalletCore.ReplicatedKVStore.Attempts
import BreadwalletCore.ReplicatedKVStore.Cipher
import BreadwalletCore.ReplicatedKVStore.Agreement
import BreadwalletCore.ReplicatedKVStore.Sync
import BreadwalletCore.ReplicatedKVStore.Replication
import BreadwalletCore.PaymentProtocol.Fields
import BreadwalletCore.PaymentProtocol.Payment
import BreadwalletCore.PaymentProtocol.Writers
import BreadwalletCore.PaymentProtocol.Constructed
import BreadwalletCore.PaymentProtocol.ConstructedPayment
import BreadwalletCore.PaymentProtocol.Unknown
import BreadwalletCore.PaymentProtocol.Messages
import BreadwalletCore.PaymentProtocol.Reserialized
import BreadwalletCore.PaymentProtocol.Digest
import BreadwalletCore.Wallet.GapLimit
import BreadwalletCore.Transaction.Offsets
import BreadwalletCore.Transaction.Buffer
import BreadwalletCore.CoreDatabase.Blocks
import BreadwalletCore.Platform.AssetArchive
import BreadwalletCore.Platform.HTTPResponse
import BreadwalletCore.Wallet.RemovalNotice
import BreadwalletCore.Platform.WebSocket
import BreadwalletCore.Wallet.Removal
import BreadwalletCore.Wallet.SelectionCalls
import BreadwalletCore.PeerManager.DeliveryOrder
import BreadwalletCore.PeerManager.Confirmations
import BreadwalletCore.PeerManager.LivePointers
import BreadwalletCore.PeerManager.LiveRuns
import BreadwalletCore.Peer.Framing
import BreadwalletCore.Peer.Reject
import BreadwalletCore.PeerManager.FeeRate
import BreadwalletCore.PeerManager.Locators
import BreadwalletCore.PeerManager.SavedBlocks
import BreadwalletCore.Data.RunnerUp
import BreadwalletCore.Key.Bip44
import BreadwalletCore.Transaction.ScriptElements
import BreadwalletCore.Address.Base58Codec
import BreadwalletCore.Crypto.Poly1305
import BreadwalletCore.Crypto.Aead
import BreadwalletCore.PaymentProtocol.Bounds
import BreadwalletCore.Data.LinearChecksum
import BreadwalletCore.Address.Bech32
import BreadwalletCore.Address.Bech32Codec
import BreadwalletCore.Data.RoundCipher
import BreadwalletCore.Crypto.Aes
import BreadwalletCore.Key.Bip38
import BreadwalletCore.Key.PrivKey
import BreadwalletCore.PaymentProtocol.EncryptedMessage
import BreadwalletCore.PaymentProtocol.KeyAgreement
import BreadwalletCore.PaymentProtocol.EncryptedRoundTrip
import BreadwalletCore.ReplicatedKVStore.Nonce
import BreadwalletCore.Data.CheckedInt
import BreadwalletCore.Platform.HTTPRequest
import BreadwalletCore.Platform.HTTPRange
import BreadwalletCore.Platform.SendQueue
import BreadwalletCore.Platform.Framing
import BreadwalletCore.Key.KeyWrapper
import BreadwalletCore.WalletManager.Summary
import BreadwalletCore.Platform.Tar
import BreadwalletCore.Platform.TarArchive
import BreadwalletCore.Platform.BSPatch
import BreadwalletCore.Data.BlockPadding
import BreadwalletCore.Crypto.Hash
import BreadwalletCore.Data.KeyedHash
import BreadwalletCore.Crypto.Hmac
import BreadwalletCore.Crypto.Drbg
import BreadwalletCore.Data.Scrypt
import BreadwalletCore.Crypto.Pbkdf2
import BreadwalletCore.Crypto.Scrypt
import BreadwalletCore.Data.PercentEncoding
import BreadwalletCore.Platform.QueryString
import BreadwalletCore.Data.DecimalText
import BreadwalletCore.Data.Uri
import BreadwalletCore.Platform.PaymentRequest
import BreadwalletCore.Crypto.Digests
import BreadwalletCore.Peer.Exchange
