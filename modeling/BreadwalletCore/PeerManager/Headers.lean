import BreadwalletCore.MerkleBlock.Acceptance
import BreadwalletCore.Peer.Bounds
import BreadwalletCore.PeerManager.Blocks

/-!
# From headers to blocks

`_BRPeerAcceptHeadersMessage` asks for blocks behind the last header that is
older than the key time by a week and two hours, searched from the second
header on.  `_peerRelayedBlock` discards the headers that are younger than the
key time less a week, plus two hours.

The locator is the double SHA-256 of a header, while `BRMerkleBlockParse` gives
the header the hash of another function.
-/

namespace BreadwalletCore

open Segment (slice)

namespace Payload

variable {env : HeadersEnv} {msg : List UInt8}

/-- The number of headers. -/
def headersCount (msg : List UInt8) : ℕ :=
  (varInt msg 0).1

/-- The bytes of header `i` and of its count of transactions. -/
def headerBytes (msg : List UInt8) (i : ℕ) : List UInt8 :=
  slice msg ((varInt msg 0).2 + 81 * i) 81

/-- The payload has room for its headers. -/
def HoldsHeaders (msg : List UInt8) : Prop :=
  msg.length ≤ maxMsgLength ∧ (varInt msg 0).2 + 81 * headersCount msg ≤ msg.length

/-- The block of header `i` that the peer manager gets. -/
def headerBlock (env : HeadersEnv) (msg : List UInt8) (i : ℕ) : ChainBlock :=
  let block := parseHeader env (headerBytes msg i)
  { addr := i
    blockHash := block.blockHash
    prevBlock := BitVec.ofNat 256 (LittleEndian.value (slice (headerBytes msg i) 4 32))
    timestamp := block.timestamp
    target := block.target
    totalTx := block.totalTx
    height := blockUnknownHeight }

/-- The headers up to `i` reach the chain, and the locator is the hash of
header `i`: no block is left out between them. -/
def HandsOver (env : HeadersEnv) (msg : List UInt8) (locator : UInt256) : Prop :=
  ∃ i < headersCount msg, (headerBlock env msg i).blockHash = locator ∧
    ∀ j ≤ i, (headerBlock env msg j).isRecentHeader env.earliestKeyTime = false

/-- Header `i` is older than the scan looks for. -/
def isOld (env : HeadersEnv) (msg : List UInt8) (i : ℕ) : Bool :=
  let timestamp := (headerBlock env msg i).timestamp
  timestamp > 0 ∧ ¬ nearKeyTime env timestamp

/-- The number of old headers right behind the first header. -/
def oldHeaders (env : HeadersEnv) (msg : List UInt8) : ℕ :=
  ((List.range' 1 (headersCount msg - 1)).takeWhile (isOld env msg)).length

/-! ## The scan -/

/-- The index that is computed for a byte of header `i`. -/
theorem header_index
    (hholds : HoldsHeaders msg)
    {i k : ℕ}
    (hi : i < headersCount msg)
    (hk : k ≤ 81) :
    wrap ((varInt msg 0).2 + 81 * i + k) = (varInt msg 0).2 + 81 * i + k := by
  have hmax : maxMsgLength < 2 ^ 64 := by decide
  obtain ⟨hlen, hall⟩ := hholds
  exact wrap_of_lt (by omega)

theorem readTimestamp_value
    (env : HeadersEnv)
    (hholds : HoldsHeaders msg)
    {i : ℕ}
    (hi : i < headersCount msg) :
    (readTimestamp msg (varInt msg 0).2 i).value = (headerBlock env msg i).timestamp := by
  have hindex := header_index (k := 68) hholds hi (by omega)
  change UInt32.ofNat (LittleEndian.value (slice msg (wrap _) 4)) =
    UInt32.ofNat (LittleEndian.value (slice (headerBytes msg i) 68 4))
  rw [hindex, headerBytes, Segment.slice_slice msg _ (by omega)]

theorem readHeader_value
    (hholds : HoldsHeaders msg)
    {i : ℕ}
    (hi : i < headersCount msg) :
    (readBytes msg (wrap ((varInt msg 0).2 + 81 * i)) 80).value = (headerBytes msg i).take 80 := by
  have hindex := header_index (k := 0) hholds hi (by omega)
  rw [Nat.add_zero] at hindex
  change slice msg (wrap _) 80 = _
  rw [hindex, headerBytes, slice, slice, List.take_take]
  rfl

/-- The scan stops behind the old headers that follow the one it starts from. -/
theorem scanHeaders_old
    (env : HeadersEnv)
    (hholds : HoldsHeaders msg)
    {n last : ℕ}
    (hn : headersCount msg ≤ last + n)
    (hlast : last < headersCount msg) :
    (scanHeaders env msg (varInt msg 0).2 (headersCount msg) n last).value =
      last + 1 + ((List.range' (last + 1) (headersCount msg - (last + 1))).takeWhile
        (isOld env msg)).length := by
  induction n generalizing last with
  | zero =>
      omega
  | succ n ih =>
      rw [scanHeaders]
      by_cases hnext : last + 1 < headersCount msg
      · rw [if_pos hnext, Traced.value_bind, readTimestamp_value env hholds hnext,
          show headersCount msg - (last + 1) = headersCount msg - (last + 1 + 1) + 1 by omega,
          List.range'_succ]
        by_cases hold : isOld env msg (last + 1) = true
        · rw [List.takeWhile_cons_of_pos hold, if_pos (of_decide_eq_true hold),
            ih (by omega) hnext, List.length_cons]
          omega
        · rw [List.takeWhile_cons_of_neg hold, if_neg (fun h => hold (decide_eq_true h))]
          rfl
      · rw [if_neg hnext, show headersCount msg - (last + 1) = 0 by omega]
        rfl

theorem oldHeaders_lt
    (hpos : 0 < headersCount msg) :
    oldHeaders env msg < headersCount msg := by
  have hle := (List.takeWhile_sublist (isOld env msg)
    (l := List.range' 1 (headersCount msg - 1))).length_le
  rw [List.length_range'] at hle
  rw [oldHeaders]
  omega

theorem requestNext_getblocks
    (hholds : HoldsHeaders msg)
    (hpos : 0 < headersCount msg)
    {timestamp : UInt32} {locators : List UInt256}
    (h : (requestNext env msg (varInt msg 0).2 (headersCount msg) timestamp).value =
      .getblocks locators) :
    locators = [env.sha256d ((headerBytes msg (oldHeaders env msg)).take 80),
      env.sha256d ((headerBytes msg 0).take 80)] := by
  rw [requestNext] at h
  simp only [Traced.value_bind] at h
  split at h
  · have hscan := scanHeaders_old env hholds
      (show headersCount msg ≤ 0 + headersCount msg by omega) hpos
    have hstop : (scanHeaders env msg (varInt msg 0).2 (headersCount msg)
        (headersCount msg) 0).value - 1 = oldHeaders env msg := by
      rw [hscan, oldHeaders, Nat.zero_add, Nat.add_sub_cancel_left]
    have hfirst : slice msg (varInt msg 0).2 80 = (headerBytes msg 0).take 80 := by
      rw [headerBytes, slice, slice, List.take_take]
      rfl
    simp only [Traced.value_bind, Traced.value_pure] at h
    rw [hstop, readHeader_value hholds (oldHeaders_lt hpos)] at h
    cases h
    exact congrArg (fun first => [_, env.sha256d first]) hfirst
  · cases h

/-- The locators of a request for blocks. -/
theorem acceptHeaders_getblocks
    (hholds : HoldsHeaders msg)
    {locators : List UInt256}
    (h : (acceptHeaders env msg).value.request = some (.getblocks locators)) :
    0 < headersCount msg ∧
      locators = [env.sha256d ((headerBytes msg (oldHeaders env msg)).take 80),
        env.sha256d ((headerBytes msg 0).take 80)] := by
  rw [acceptHeaders] at h
  simp only [Traced.value_bind] at h
  split at h
  · cases h
  · simp only [Traced.value_bind] at h
    split at h
    · rename_i hrequest
      simp only [Traced.value_bind, Traced.value_pure, Option.some.injEq] at h
      have hpos : 0 < headersCount msg := by
        -- without headers nothing is near the key time
        by_contra hzero
        have hnone : ¬ (readVarInt msg 0).value.1 > 0 := hzero
        rw [lastTimestamp, if_neg hnone, Traced.value_pure] at hrequest
        rcases hrequest with hmany | ⟨hpositive, -⟩
        · omega
        · exact absurd hpositive (by decide)
      exact ⟨hpos, requestNext_getblocks hholds hpos h⟩
    · cases h

/-! ## The hand-over -/

/-- The locator reaches a header of the message, and the peer manager keeps the
headers up to it. -/
def LocatorFits (env : HeadersEnv) (msg : List UInt8) : Prop :=
  ∃ i < headersCount msg,
    headerHash env (headerBytes msg i) =
      env.sha256d ((headerBytes msg (oldHeaders env msg)).take 80) ∧
    ∀ j ≤ i, (headerBlock env msg j).isRecentHeader env.earliestKeyTime = false

/-- **Headers and blocks.**  The request for blocks leaves no block out exactly
when the double SHA-256 of the last old header is the hash of a header that is
kept, together with those in front of it. -/
theorem handsOver_iff_locatorFits
    (hholds : HoldsHeaders msg)
    {locators : List UInt256}
    (h : (acceptHeaders env msg).value.request = some (.getblocks locators)) :
    (∃ locator ∈ locators.head?, HandsOver env msg locator) ↔ LocatorFits env msg := by
  obtain ⟨-, rfl⟩ := acceptHeaders_getblocks hholds h
  rw [List.head?_cons]
  constructor
  · rintro ⟨locator, ⟨⟩, i, hi, hhash, hkept⟩
    exact ⟨i, hi, hhash, hkept⟩
  · rintro ⟨i, hi, hhash, hkept⟩
    exact ⟨_, rfl, i, hi, hhash, hkept⟩

/-- A header is valid unless its target does not fit. -/
theorem headerIsValid_of_target
    {buf : List UInt8}
    (hsize : BRMerkleBlock.targetSize (parseHeader env buf).target ≤ 31) :
    headerIsValid env (parseHeader env buf) = true := by
  obtain ⟨r, hvalid, hr⟩ := BRMerkleBlock.isValid_of_root
    (fun a b => env.sha256d (hashBytes a ++ hashBytes b))
    (show (parseHeader env buf).computedRoot _ = .ok 0 from rfl) hsize env.now
  rw [headerIsValid, hvalid]
  exact hr.mpr (.inl rfl)

/-- A message of one header, with a timestamp of the year 2020. -/
def recentHeader : List UInt8 :=
  [1] ++ List.replicate 68 0 ++ [0x00, 0x10, 0x5e, 0x5f] ++ List.replicate 9 0

/-- A peer of a wallet of the year 2017. -/
def recentEnv (sha256d timetravel10 scrypt : List UInt8 → UInt256) : HeadersEnv where
  now := 1600000000
  earliestKeyTime := 1500000000
  sha256d := sha256d
  timetravel10 := timetravel10
  scrypt := scrypt
  timestampAddress := 0x7f0000000000

theorem holdsHeaders_recentHeader : HoldsHeaders recentHeader :=
  ⟨by decide, by decide⟩

/-- Hashes that only tell which function computed them. -/
def taggedEnv : HeadersEnv :=
  recentEnv (fun _ => 1) (fun _ => 2) (fun _ => 3)

theorem handsOver_iff_locatorFits_recentHeader :
    ∃ locators,
      (acceptHeaders taggedEnv recentHeader).value.request = some (.getblocks locators) ∧
        ((∃ locator ∈ locators.head?, HandsOver taggedEnv recentHeader locator) ↔
          LocatorFits taggedEnv recentHeader) := by
  obtain ⟨locators, h⟩ : ∃ locators,
      (acceptHeaders taggedEnv recentHeader).value.request = some (.getblocks locators) :=
    ⟨_, rfl⟩
  exact ⟨locators, h, handsOver_iff_locatorFits holdsHeaders_recentHeader h⟩

/-- The first header is asked from, although the peer manager discards it,
whatever the hashes are. -/
theorem recentHeader_not_handsOver
    (sha256d timetravel10 scrypt : List UInt8 → UInt256) :
    HoldsHeaders recentHeader ∧
      (∀ i < headersCount recentHeader,
        headerIsValid (recentEnv sha256d timetravel10 scrypt)
          (parseHeader (recentEnv sha256d timetravel10 scrypt)
            (headerBytes recentHeader i)) = true) ∧
      ∃ locators,
        (acceptHeaders (recentEnv sha256d timetravel10 scrypt) recentHeader).value.request =
            some (.getblocks locators) ∧
          ¬ ∃ locator ∈ locators.head?,
            HandsOver (recentEnv sha256d timetravel10 scrypt) recentHeader locator := by
  have hrecent : (headerBlock (recentEnv sha256d timetravel10 scrypt) recentHeader
      0).isRecentHeader 1500000000 = true := by
    rw [ChainBlock.isRecentHeader, decide_eq_true_eq]
    refine ⟨rfl, ?_⟩
    change (1600000000 : UInt32) + _ > _
    decide
  refine ⟨holdsHeaders_recentHeader, ?_, _, rfl, ?_⟩
  · intro i hi
    have hcount : headersCount recentHeader = 1 := rfl
    rw [hcount, Nat.lt_one_iff] at hi
    subst hi
    refine headerIsValid_of_target ?_
    change BRMerkleBlock.targetSize 0 ≤ 31
    decide
  · rintro ⟨locator, -, i, -, -, hkept⟩
    have hfirst := hkept 0 (Nat.zero_le i)
    change ChainBlock.isRecentHeader _ 1500000000 = false at hfirst
    rw [hrecent] at hfirst
    cases hfirst

theorem not_handsOver_recentHeader :
    HoldsHeaders recentHeader ∧
      (∀ i < headersCount recentHeader,
        headerIsValid taggedEnv (parseHeader taggedEnv (headerBytes recentHeader i)) = true) ∧
      ∃ locators,
        (acceptHeaders taggedEnv recentHeader).value.request = some (.getblocks locators) ∧
          ¬ ∃ locator ∈ locators.head?, HandsOver taggedEnv recentHeader locator :=
  recentHeader_not_handsOver (fun _ => 1) (fun _ => 2) (fun _ => 3)

end Payload

end BreadwalletCore
