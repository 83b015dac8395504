import BreadwalletCore.Peer.Messages
import BreadwalletCore.Transaction.Access

/-!
# Reading the payload of a message

The handlers of the version, addr, inv, headers, getdata, notfound and reject
messages of `BRPeer.c`, with the places of the payload they read and the sums
they compare with its length.  Lengths are `size_t`, so a sum is compared
modulo `2^64`.

`_BRPeerAcceptInvMessage` is the handler of `Messages` once more, with its
reads (`acceptInv_value`).
-/

namespace BreadwalletCore

open Segment (slice)
open Traced (each)

/-- `MAX_MSG_LENGTH`. -/
def maxMsgLength : ℕ := 0x02000000

/-- `MIN_PROTO_VERSION`. -/
def minProtoVersion : UInt32 := 80000

/-- `inv_filtered_block`. -/
def invFilteredBlock : ℕ := 3

namespace Payload

/-- `UInt32GetLE` and the like. -/
def readLE (msg : List UInt8) (off n : ℕ) : Reads ℕ :=
  ⟨LittleEndian.value (slice msg off n), [.read off n]⟩

/-- `UInt256Get`. -/
def readHash (msg : List UInt8) (off : ℕ) : Reads UInt256 :=
  ⟨BitVec.ofNat 256 (LittleEndian.value (slice msg off 32)), [.read off 32]⟩

/-- A copy out of the payload. -/
def readBytes (msg : List UInt8) (off n : ℕ) : Reads (List UInt8) :=
  ⟨slice msg off n, [.read off n]⟩

/-- `strncpy` out of the payload: it reads up to a NUL, or `n` bytes. -/
def readString (msg : List UInt8) (off n : ℕ) : Reads (List UInt8) :=
  let rest := slice msg off n
  let text := rest.takeWhile (· ≠ 0)
  ⟨text, [.read off (if text.length < rest.length then text.length + 1 else n)]⟩

/-- A length that is compared with `msgLen`. -/
def lengthNeeded (n : ℕ) : Reads ℕ :=
  ⟨wrap n, [.sum n]⟩

/-! ## version -/

/-- What a version message sets. -/
structure VersionInfo where
  version : UInt32 := 0
  services : UInt64 := 0
  timestamp : UInt64 := 0
  useragent : List UInt8 := []
  lastblock : UInt32 := 0
deriving DecidableEq, Repr

/-- `_BRPeerAcceptVersionMessage`, apart from the answer. -/
def acceptVersion (info : VersionInfo) (msg : List UInt8) : Reads (VersionInfo × Bool) :=
  if 85 > msg.length then pure (info, false)
  else do
    let version ← readLE msg 0 4
    let services ← readLE msg 4 8
    let timestamp ← readLE msg 12 8
    let _recvServices ← readLE msg 20 8
    let _recvAddr ← readBytes msg 28 16
    let _recvPort ← readBytes msg 44 2
    let _fromServices ← readLE msg 46 8
    let _fromAddr ← readBytes msg 54 16
    let _fromPort ← readBytes msg 70 2
    let _nonce ← readLE msg 72 8
    let str ← readVarInt msg 80
    let off := 80 + str.2
    let info : VersionInfo := { info with
      version := UInt32.ofNat version
      services := UInt64.ofNat services
      timestamp := UInt64.ofNat timestamp }
    let needed ← lengthNeeded (off + str.1 + 4)
    if needed > msg.length then pure (info, false)
    else if info.version < minProtoVersion then pure (info, false)
    else do
      let useragent ← readBytes msg off str.1
      let lastblock ← readLE msg (wrap (off + str.1)) 4
      pure ({ info with
        useragent := useragent ++ [0]
        lastblock := UInt32.ofNat lastblock }, true)

/-! ## addr -/

/-- The fields of a `BRPeer` of an addr message. -/
structure PeerAddress where
  address : List UInt8
  port : UInt16
  services : UInt64
  timestamp : UInt64
deriving DecidableEq, Repr

/-- `_BRPeerIsIPv4`. -/
def PeerAddress.isIPv4 (p : PeerAddress) : Bool :=
  p.address.take 12 = [0, 0, 0, 0, 0, 0, 0, 0, 0, 0, 0xff, 0xff]

/-- The time an address is taken to have. -/
def PeerAddress.adjusted (now : UInt64) (p : PeerAddress) : PeerAddress :=
  let timestamp :=
    if p.timestamp > now + 10 * 60 ∨ p.timestamp = 0 then now - 5 * 24 * 60 * 60 else p.timestamp
  { p with timestamp := timestamp - 2 * 60 * 60 }

/-- One address. -/
def readAddress (msg : List UInt8) (off : ℕ) : Reads PeerAddress := do
  let timestamp ← readLE msg off 4
  let services ← readLE msg (off + 4) 8
  let address ← readBytes msg (off + 12) 16
  let port ← readBytes msg (off + 28) 2
  pure {
    address
    port := UInt16.ofNat (LittleEndian.value port.reverse)
    services := UInt64.ofNat services
    timestamp := UInt64.ofNat timestamp }

/-- `_BRPeerAcceptAddrMessage`: the peers relayed, and `r`. -/
def acceptAddr (sentGetaddr : Bool) (now : UInt64) (msg : List UInt8) :
    Reads (List PeerAddress × Bool) := do
  let count ← readVarInt msg 0
  let off := count.2
  let needed ← lengthNeeded (off + count.1 * 30)
  if off = 0 ∨ needed > msg.length then pure ([], false)
  else if count.1 > 1000 then pure ([], true)
  else if sentGetaddr then do
    let peers ← each (List.range count.1) (fun i => readAddress msg (off + 30 * i))
    -- peers without full blocks or with an IPv6 address are skipped
    let kept := peers.filter (fun p => p.services &&& 1 ≠ 0 ∧ p.isIPv4)
    pure (kept.map (PeerAddress.adjusted now), true)
  else pure ([], true)

/-! ## inv, getdata and notfound -/

/-- The types of the items, with their positions. -/
def readTypes (msg : List UInt8) (off count : ℕ) : Reads (List (ℕ × ℕ)) :=
  each (List.range count) (fun i => do
    let type ← readLE msg (off + 36 * i) 4
    pure (type, i))

/-- The positions of the items of one type. -/
def positions (items : List (ℕ × ℕ)) (type : ℕ) : List ℕ :=
  (items.filter (fun item => item.1 = type)).map Prod.snd

/-- The hashes of some items. -/
def readHashes (msg : List UInt8) (off : ℕ) (items : List ℕ) : Reads (List UInt256) :=
  each items (fun i => readHash msg (off + 36 * i + 4))

/-- `_BRPeerAcceptInvMessage`. -/
def acceptInv (ctx : PeerContext) (msg : List UInt8) :
    Reads (PeerContext × List PeerEvent × Bool) := do
  let count ← readVarInt msg 0
  let off := count.2
  let needed ← lengthNeeded (off + count.1 * 36)
  if off = 0 ∨ needed > msg.length then pure (ctx, [], false)
  else if count.1 > maxGetdataHashes then pure (ctx, [], true)
  else do
    let items ← readTypes msg off count.1
    let transactions := positions items invTx
    let blocks := positions items invBlock
    if transactions ≠ [] ∧ ¬ ctx.sentFilter ∧ ¬ ctx.sentMempool ∧ ¬ ctx.sentGetblocks then
      pure (ctx, [], false)
    else if transactions.length > 10000 then pure (ctx, [], false)
    else if ctx.currentBlockHeight > 0 ∧ blocks.length > 2 ∧ blocks.length < 500 ∧
        ctx.currentBlockHeight.toNat + ctx.knownBlockHashes.length + blocks.length <
          ctx.lastblock.toNat then
      pure (ctx, [], false)
    else do
      let blocks := if ¬ ctx.sentFilter ∧ ¬ ctx.sentGetblocks then [] else blocks
      let blockHashes ← readHashes msg off blocks
      let txHashes ← readHashes msg off transactions
      let taken := ctx.takeInv txHashes blockHashes
      pure (taken.1, taken.2, true)

theorem positions_value
    (msg : List UInt8) (off count type : ℕ) :
    positions (readTypes msg off count).value type =
      (List.range count).filter (fun i =>
        LittleEndian.value (slice msg (off + 36 * i) 4) = type) := by
  rw [positions, readTypes, Traced.value_each, List.filter_map, List.map_map]
  exact List.map_id _

/-- The hashes of the items of one type are those of the inventory. -/
theorem readHashes_positions_value
    (msg : List UInt8) (off count type : ℕ) :
    (readHashes msg off (positions (readTypes msg off count).value type)).value =
      PeerContext.invHashes msg off count type := by
  rw [positions_value, readHashes, Traced.value_each, PeerContext.invHashes]
  rfl

theorem length_positions
    (msg : List UInt8) (off count type : ℕ) :
    (positions (readTypes msg off count).value type).length =
      (PeerContext.invHashes msg off count type).length := by
  rw [← readHashes_positions_value, readHashes, Traced.value_each, List.length_map]

/-- Block hashes that do not count need not be read. -/
theorem takeInv_dropped
    (ctx : PeerContext) (transactions blocks : List UInt256)
    (hdrop : ¬ ctx.sentFilter ∧ ¬ ctx.sentGetblocks) :
    ctx.takeInv transactions [] = ctx.takeInv transactions blocks := by
  have hblocks : ctx.invBlocks [] = ctx.invBlocks blocks := by
    rw [PeerContext.invBlocks, PeerContext.invBlocks, if_pos hdrop, if_pos hdrop]
  rw [PeerContext.takeInv, PeerContext.takeInv, hblocks]

/-- The handler with its reads is the handler. -/
theorem acceptInv_value
    (ctx : PeerContext) (msg : List UInt8) :
    (acceptInv ctx msg).value = ctx.acceptInv msg := by
  have hwrap : wrap ((varInt msg 0).2 + wrap ((varInt msg 0).1 * 36)) =
      wrap ((varInt msg 0).2 + (varInt msg 0).1 * 36) :=
    Nat.add_mod_mod _ _ _
  have htx := length_positions msg (varInt msg 0).2 (varInt msg 0).1 invTx
  have hblock := length_positions msg (varInt msg 0).2 (varInt msg 0).1 invBlock
  have hne : (positions (readTypes msg (varInt msg 0).2 (varInt msg 0).1).value invTx ≠ []) ↔
      PeerContext.invHashes msg (varInt msg 0).2 (varInt msg 0).1 invTx ≠ [] := by
    rw [← List.length_pos_iff, ← List.length_pos_iff, htx]
  rw [acceptInv, PeerContext.acceptInv]
  simp only [Traced.value_bind, show (readVarInt msg 0).value = varInt msg 0 from rfl, hwrap,
    gt_iff_lt, lengthNeeded, apply_ite Traced.value, Traced.value_pure, htx, hblock, hne,
    PeerContext.isShortInv, readHashes_positions_value]
  by_cases hdrop : ¬ ctx.sentFilter ∧ ¬ ctx.sentGetblocks
  · simp only [if_pos hdrop, show (readHashes msg (varInt msg 0).2 []).value = [] from rfl,
      takeInv_dropped ctx _ (PeerContext.invHashes msg (varInt msg 0).2 (varInt msg 0).1 invBlock)
        hdrop]
    rfl
  · simp only [if_neg hdrop, readHashes_positions_value]
    rfl

/-- What is sent in answer to a getdata message. -/
structure GetdataAnswer where
  published : List RawTransaction := []
  notfound : List (List UInt8) := []

/-- One item of a getdata message. -/
def answerItem (requestedTx : UInt256 → Option RawTransaction) (msg : List UInt8) (off : ℕ)
    (answer : GetdataAnswer) (i : ℕ) : Reads GetdataAnswer := do
  let type ← readLE msg (off + 36 * i) 4
  let hash ← readHash msg (off + 36 * i + 4)
  match (if type = invTx then (requestedTx hash).filter (fun tx => tx.size < txMaxSize)
    else none) with
  | some tx => pure { answer with published := answer.published ++ [tx] }
  | none => do
      let item ← readBytes msg (off + 36 * i) 36
      pure { answer with notfound := answer.notfound ++ [item] }

/-- The items of a getdata message from position `i` on. -/
def answerItems (requestedTx : UInt256 → Option RawTransaction) (msg : List UInt8) (off : ℕ) :
    ℕ → ℕ → GetdataAnswer → Reads GetdataAnswer
  | 0, _, answer => pure answer
  | n + 1, i, answer => do
      let answer ← answerItem requestedTx msg off answer i
      answerItems requestedTx msg off n (i + 1) answer

/-- `_BRPeerAcceptGetdataMessage`. -/
def acceptGetdata (requestedTx : UInt256 → Option RawTransaction) (msg : List UInt8) :
    Reads (GetdataAnswer × Bool) := do
  let count ← readVarInt msg 0
  let off := count.2
  let needed ← lengthNeeded (off + 36 * count.1)
  if off = 0 ∨ needed > msg.length then pure ({}, false)
  else if count.1 > maxGetdataHashes then pure ({}, true)
  else do
    let answer ← answerItems requestedTx msg off count.1 0 {}
    pure (answer, true)

/-- `_BRPeerAcceptNotfoundMessage`: the hashes of transactions and blocks, and `r`. -/
def acceptNotfound (msg : List UInt8) : Reads ((List UInt256 × List UInt256) × Bool) := do
  let count ← readVarInt msg 0
  let off := count.2
  let needed ← lengthNeeded (off + 36 * count.1)
  if off = 0 ∨ needed > msg.length then pure (([], []), false)
  else if count.1 > maxGetdataHashes then pure (([], []), true)
  else do
    let items ← each (List.range count.1) (fun i => do
      let type ← readLE msg (off + 36 * i) 4
      let hash ← readHash msg (off + 36 * i + 4)
      pure (type, hash))
    let txs := items.filter (fun item => item.1 = invTx)
    let blocks := items.filter (fun item => item.1 = invFilteredBlock ∨ item.1 = invBlock)
    pure ((txs.map Prod.snd, blocks.map Prod.snd), true)

/-! ## headers -/

/-- What the handler of a headers message uses. -/
structure HeadersEnv where
  now : UInt32
  earliestKeyTime : UInt32
  sha256d : List UInt8 → UInt256
  timetravel10 : List UInt8 → UInt256
  scrypt : List UInt8 → UInt256
  /-- the address of the field `timestamp` of a new block -/
  timestampAddress : ℕ

/-- The message sent in answer to headers. -/
inductive HeadersRequest
  | getblocks (locators : List UInt256)
  | getheaders (locators : List UInt256)
deriving DecidableEq, Repr

/-- What comes of a headers message. -/
structure HeadersResult where
  request : Option HeadersRequest := none
  relayed : List PeerBlock := []
  r : Bool

/-- A `NULL` array. -/
def nullArray (α : Type) : HeapArray α :=
  ⟨none, 0, by decide, by rintro _ ⟨⟩⟩

/-- The hash that `BRMerkleBlockParse` gives to a header.  It compares the
address of the field `timestamp` with a time. -/
def headerHash (env : HeadersEnv) (buf : List UInt8) : UInt256 :=
  if env.timestampAddress ≥ 1493124696 then env.timetravel10 (buf.take 80)
  else env.scrypt (buf.take 80)

/-- `BRMerkleBlockParse` on the 81 bytes of a header, which leave no room for
`totalTx`. -/
def parseHeader (env : HeadersEnv) (buf : List UInt8) : PeerBlock where
  blockHash := headerHash env buf
  merkleRoot := BitVec.ofNat 256 (LittleEndian.value (slice buf 36 32))
  timestamp := UInt32.ofNat (LittleEndian.value (slice buf 68 4))
  target := UInt32.ofNat (LittleEndian.value (slice buf 72 4))
  totalTx := 0
  hashes := nullArray UInt256
  flags := nullArray UInt8

/-- `BRMerkleBlockIsValid`; a header that makes it fault is not valid either. -/
def headerIsValid (env : HeadersEnv) (block : PeerBlock) : Bool :=
  match block.isValid (fun a b => env.sha256d (hashBytes a ++ hashBytes b)) env.now with
  | .ok valid => valid
  | .error _ => false

/-- `timestamp + 7*24*60*60 + BLOCK_MAX_TIME_DRIFT >= earliestKeyTime`. -/
def nearKeyTime (env : HeadersEnv) (timestamp : UInt32) : Bool :=
  timestamp + 7 * 24 * 60 * 60 + 2 * 60 * 60 ≥ env.earliestKeyTime

/-- The timestamp of header `i`. -/
def readTimestamp (msg : List UInt8) (off i : ℕ) : Reads UInt32 := do
  let timestamp ← readLE msg (wrap (off + 81 * i + 68)) 4
  pure (UInt32.ofNat timestamp)

/-- The timestamp of the last header, or `0` without headers. -/
def lastTimestamp (msg : List UInt8) (off count : ℕ) : Reads UInt32 :=
  if count > 0 then readTimestamp msg off (count - 1) else pure 0

/-- The two assignments of `timestamp` behind `++last`, repeated while the
header is older than needed; the number of rounds left, and `last`. -/
def scanHeaders (env : HeadersEnv) (msg : List UInt8) (off count : ℕ) : ℕ → ℕ → Reads ℕ
  | 0, last => pure last
  | n + 1, last =>
      if last + 1 < count then do
        let timestamp ← readTimestamp msg off (last + 1)
        if timestamp > 0 ∧ ¬ nearKeyTime env timestamp then
          scanHeaders env msg off count n (last + 1)
        else pure (last + 1)
      else pure (last + 1)

/-- The loop that hands headers over, from header `i` on. -/
def relayHeaders (env : HeadersEnv) (msg : List UInt8) (off : ℕ) :
    ℕ → ℕ → List PeerBlock → Reads (List PeerBlock × Bool)
  | 0, _, relayed => pure (relayed, true)
  | n + 1, i, relayed => do
      let buf ← readBytes msg (wrap (off + 81 * i)) 81
      let block := parseHeader env buf
      if ¬ headerIsValid env block then pure (relayed, false)
      else relayHeaders env msg off n (i + 1) (relayed ++ [block])

/-- The request for what comes next: blocks once the last header is near the
key time, else more headers. -/
def requestNext (env : HeadersEnv) (msg : List UInt8) (off count : ℕ) (timestamp : UInt32) :
    Reads HeadersRequest := do
  let lastHeader ← readBytes msg (wrap (off + 81 * (count - 1))) 80
  let firstHeader ← readBytes msg off 80
  if timestamp > 0 ∧ nearKeyTime env timestamp then do
    let last ← scanHeaders env msg off count count 0
    let header ← readBytes msg (wrap (off + 81 * (last - 1))) 80
    pure (.getblocks [env.sha256d header, env.sha256d firstHeader])
  else pure (.getheaders [env.sha256d lastHeader, env.sha256d firstHeader])

/-- `_BRPeerAcceptHeadersMessage`. -/
def acceptHeaders (env : HeadersEnv) (msg : List UInt8) : Reads HeadersResult := do
  let count ← readVarInt msg 0
  let off := count.2
  let needed ← lengthNeeded (off + 81 * count.1)
  if off = 0 ∨ needed > msg.length then pure { r := false }
  else do
    let timestamp ← lastTimestamp msg off count.1
    if count.1 ≥ 2000 ∨ (timestamp > 0 ∧ nearKeyTime env timestamp) then do
      let request ← requestNext env msg off count.1 timestamp
      let relayed ← relayHeaders env msg off count.1 0 []
      pure { request := some request, relayed := relayed.1, r := relayed.2 }
    else pure { r := false }

/-! ## reject -/

/-- What is logged of a reject message. -/
structure Rejection where
  type : List UInt8
  code : UInt8
  reason : List UInt8
deriving DecidableEq, Repr

/-- The room for a string of the given length, without its NUL. -/
def stringRoom (strLen : ℕ) : ℕ :=
  (if strLen < 0x1000 then strLen + 1 else 0x1000) - 1

/-- `_BRPeerAcceptRejectMessage` from the second length on.  `hashLen` is `0`
for every type, so that no hash is read and `rejectedTx` is never called. -/
def readReason (msg : List UInt8) (type : List UInt8) (code : UInt8) (off : ℕ) :
    Reads (Option Rejection × Bool) := do
  let str ← readVarInt msg off
  let off := wrap (off + str.2)
  let hashLen := 0
  let needed ← lengthNeeded (off + str.1 + hashLen)
  if needed > msg.length then pure (none, false)
  else do
    let reason ← readString msg off (stringRoom str.1)
    pure (some { type, code, reason }, true)

/-- `_BRPeerAcceptRejectMessage`. -/
def acceptReject (msg : List UInt8) : Reads (Option Rejection × Bool) := do
  let str ← readVarInt msg 0
  let off := str.2
  let needed ← lengthNeeded (off + str.1 + 1)
  if needed > msg.length then pure (none, false)
  else do
    let type ← readString msg off (stringRoom str.1)
    let off := wrap (off + str.1)
    let code ← readLE msg off 1
    readReason msg type (UInt8.ofNat code) (wrap (off + 1))

end Payload

end BreadwalletCore
