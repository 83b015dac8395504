import BreadwalletCore.Peer.Payload

/-!
# The bounds of a payload

A handler compares a sum that grows with a length of the payload with
`msgLen`.  While the sum stays below `2^64` everything that is read behind the
comparison is inside the payload; a longer length wraps the sum and passes.
-/

namespace BreadwalletCore

open Segment (slice)
open Traced (All all_bind all_pure all_each all_ite)

namespace Payload

variable {msg : List UInt8} {off n : ℕ}

/-! ## Single reads -/

theorem readLE_inside :
    Inside msg (readLE msg off n) ↔ off + n ≤ msg.length :=
  List.forall_mem_singleton

theorem readBytes_inside :
    Inside msg (readBytes msg off n) ↔ off + n ≤ msg.length :=
  List.forall_mem_singleton

theorem readHash_inside :
    Inside msg (readHash msg off) ↔ off + 32 ≤ msg.length :=
  List.forall_mem_singleton

theorem lengthNeeded_inside :
    Inside msg (lengthNeeded n) ↔ n < 2 ^ 64 :=
  List.forall_mem_singleton

/-- A string that fits is read inside the payload. -/
theorem readString_inside
    (h : off + n ≤ msg.length) :
    Inside msg (readString msg off n) := by
  have hlen : (slice msg off n).length = n := Segment.length_slice h
  refine List.forall_mem_singleton.mpr ?_
  change off + (if ((slice msg off n).takeWhile (· ≠ 0)).length < (slice msg off n).length
    then ((slice msg off n).takeWhile (· ≠ 0)).length + 1 else n) ≤ msg.length
  rw [hlen]
  split_ifs <;> omega

/-! ## The lengths of a payload -/

/-- Only a spelling of nine bytes has a value from `2^32` on. -/
theorem varInt_lt
    (msg : List UInt8) (off : ℕ) :
    (varInt msg off).1 < 2 ^ 32 ∨ (varInt msg off).2 = 9 := by
  have hslice : ∀ start k, LittleEndian.value (slice msg start k) < 256 ^ k := by
    intro start k
    refine lt_of_lt_of_le (LittleEndian.value_lt _) (Nat.pow_le_pow_right (by omega) ?_)
    rw [slice, List.length_take]
    omega
  rw [varInt, varIntSwitch]
  have h2 := hslice (off + 1) 2
  have h4 := hslice (off + 1) 4
  split_ifs
  all_goals first
    | exact Or.inr rfl
    | exact Or.inl (by simp only; omega)
    | exact Or.inl (lt_of_lt_of_le (UInt8.toNat_lt _) (by omega))

/-- The most items of a size that can be counted. -/
def maxItems (size : ℕ) : ℕ :=
  (2 ^ 64 - 10) / size

/-- The sum for some items wraps exactly if there are too many of them. -/
theorem items_lt_iff
    {size : ℕ}
    (hpos : 0 < size)
    (hsize : size ≤ 100) :
    (varInt msg 0).2 + size * (varInt msg 0).1 < 2 ^ 64 ↔ (varInt msg 0).1 ≤ maxItems size := by
  rw [maxItems, Nat.le_div_iff_mul_le hpos, Nat.mul_comm size]
  have hlen := varInt_length msg 0
  rcases varInt_lt msg 0 with hsmall | hnine
  · have hmul : (varInt msg 0).1 * size ≤ 2 ^ 32 * 100 := Nat.mul_le_mul hsmall.le hsize
    constructor <;> intro <;> omega
  · rw [hnine]
    constructor <;> intro <;> omega

theorem needed_le
    {p : Prop} {n : ℕ}
    (hn : n < 2 ^ 64)
    (h : ¬ (p ∨ (lengthNeeded n).value > msg.length)) :
    n ≤ msg.length := by
  refine Nat.le_of_not_lt (fun hlt => h (Or.inr ?_))
  change wrap n > msg.length
  rwa [wrap_of_lt hn]

/-- A handler that counts items of one size before it reads them. -/
theorem counted_inside_iff
    {α : Type} {size : ℕ} {sum : ℕ × ℕ → ℕ} {fail : α} {rest : ℕ × ℕ → Reads α}
    (hpos : 0 < size)
    (hsize : size ≤ 100)
    (hsum : ∀ count, sum count = count.2 + size * count.1)
    (hrest : (varInt msg 0).2 + size * (varInt msg 0).1 ≤ msg.length →
      Inside msg (rest (varInt msg 0))) :
    Inside msg (readVarInt msg 0 >>= fun count => lengthNeeded (sum count) >>= fun needed =>
        if count.2 = 0 ∨ needed > msg.length then pure fail else rest count) ↔
      (varInt msg 0).1 ≤ maxItems size := by
  rw [← items_lt_iff hpos hsize, ← hsum]
  constructor
  · intro h
    exact lengthNeeded_inside.mp (all_bind.mp (all_bind.mp h).2).1
  · intro hlt
    refine all_bind.mpr ⟨readVarInt_inside msg 0, all_bind.mpr ⟨lengthNeeded_inside.mpr hlt, ?_⟩⟩
    refine all_ite.mpr ⟨fun _ => all_pure _, fun hfit => hrest ?_⟩
    rw [← hsum]
    exact needed_le hlt hfit

/-- Item `i` is in front of the end of the items. -/
theorem item_le
    {off size count i : ℕ}
    (hall : off + size * count ≤ msg.length)
    (hi : i < count) :
    off + size * i + size ≤ msg.length := by
  have hmul : size * (i + 1) ≤ size * count := Nat.mul_le_mul_left size hi
  rw [Nat.mul_add, Nat.mul_one] at hmul
  omega

/-! ## The handlers -/

theorem readAddress_inside
    (h : off + 30 ≤ msg.length) :
    Inside msg (readAddress msg off) :=
  all_bind.mpr ⟨readLE_inside.mpr (by omega), all_bind.mpr ⟨readLE_inside.mpr (by omega),
    all_bind.mpr ⟨readBytes_inside.mpr (by omega),
      all_bind.mpr ⟨readBytes_inside.mpr (by omega), all_pure _⟩⟩⟩⟩

theorem acceptAddr_inside_iff
    (sentGetaddr : Bool) (now : UInt64) (msg : List UInt8) :
    Inside msg (acceptAddr sentGetaddr now msg) ↔ (varInt msg 0).1 ≤ maxItems 30 := by
  refine counted_inside_iff (by omega) (by omega) (fun count => by ring) (fun hall => ?_)
  refine all_ite.mpr ⟨fun _ => all_pure _, fun _ => ?_⟩
  refine all_ite.mpr ⟨fun _ => ?_, fun _ => all_pure _⟩
  refine all_bind.mpr ⟨all_each.mpr (fun i hi => ?_), all_pure _⟩
  exact readAddress_inside (item_le hall (List.mem_range.mp hi))

theorem readTypes_inside
    {count : ℕ}
    (hall : off + 36 * count ≤ msg.length) :
    Inside msg (readTypes msg off count) := by
  refine all_each.mpr (fun i hi => all_bind.mpr ⟨readLE_inside.mpr ?_, all_pure _⟩)
  have hitem := item_le hall (List.mem_range.mp hi)
  omega

theorem positions_lt
    {count type : ℕ} :
    ∀ i ∈ positions (readTypes msg off count).value type, i < count := by
  intro i hi
  obtain ⟨item, hitem, rfl⟩ := List.mem_map.mp hi
  obtain ⟨j, hj, rfl⟩ := List.mem_map.mp (List.mem_of_mem_filter hitem)
  exact List.mem_range.mp hj

theorem readHashes_inside
    {count : ℕ} {items : List ℕ}
    (hall : off + 36 * count ≤ msg.length)
    (hitems : ∀ i ∈ items, i < count) :
    Inside msg (readHashes msg off items) := by
  refine all_each.mpr (fun i hi => readHash_inside.mpr ?_)
  have hitem := item_le hall (hitems i hi)
  omega

theorem acceptInv_inside_iff
    (ctx : PeerContext) (msg : List UInt8) :
    Inside msg (acceptInv ctx msg) ↔ (varInt msg 0).1 ≤ maxItems 36 := by
  refine counted_inside_iff (by omega) (by omega) (fun count => by ring) (fun hall => ?_)
  refine all_ite.mpr ⟨fun _ => all_pure _, fun _ => ?_⟩
  refine all_bind.mpr ⟨readTypes_inside hall, ?_⟩
  refine all_ite.mpr ⟨fun _ => all_pure _, fun _ => ?_⟩
  refine all_ite.mpr ⟨fun _ => all_pure _, fun _ => ?_⟩
  refine all_ite.mpr ⟨fun _ => all_pure _, fun _ => ?_⟩
  refine all_bind.mpr ⟨readHashes_inside hall ?_, all_bind.mpr
    ⟨readHashes_inside hall positions_lt, all_pure _⟩⟩
  intro i hi
  split at hi
  · exact absurd hi List.not_mem_nil
  · exact positions_lt i hi

theorem answerItem_inside
    (requestedTx : UInt256 → Option RawTransaction) (answer : GetdataAnswer) {i : ℕ}
    (hitem : off + 36 * i + 36 ≤ msg.length) :
    Inside msg (answerItem requestedTx msg off answer i) := by
  refine all_bind.mpr ⟨readLE_inside.mpr (by omega), all_bind.mpr
    ⟨readHash_inside.mpr (by omega), ?_⟩⟩
  split
  · exact all_pure _
  · exact all_bind.mpr ⟨readBytes_inside.mpr hitem, all_pure _⟩

theorem answerItems_inside
    (requestedTx : UInt256 → Option RawTransaction) {count n i : ℕ}
    (hall : off + 36 * count ≤ msg.length)
    (hn : i + n ≤ count) (answer : GetdataAnswer) :
    Inside msg (answerItems requestedTx msg off n i answer) := by
  induction n generalizing i answer with
  | zero =>
      exact all_pure _
  | succ n ih =>
      exact all_bind.mpr ⟨answerItem_inside requestedTx answer (item_le hall (by omega)),
        ih (by omega) _⟩

theorem acceptGetdata_inside_iff
    (requestedTx : UInt256 → Option RawTransaction) (msg : List UInt8) :
    Inside msg (acceptGetdata requestedTx msg) ↔ (varInt msg 0).1 ≤ maxItems 36 := by
  refine counted_inside_iff (by omega) (by omega) (fun count => rfl) (fun hall => ?_)
  refine all_ite.mpr ⟨fun _ => all_pure _, fun _ => ?_⟩
  exact all_bind.mpr ⟨answerItems_inside requestedTx hall (by omega) _, all_pure _⟩

theorem acceptNotfound_inside_iff
    (msg : List UInt8) :
    Inside msg (acceptNotfound msg) ↔ (varInt msg 0).1 ≤ maxItems 36 := by
  refine counted_inside_iff (by omega) (by omega) (fun count => rfl) (fun hall => ?_)
  refine all_ite.mpr ⟨fun _ => all_pure _, fun _ => ?_⟩
  refine all_bind.mpr ⟨all_each.mpr (fun i hi => ?_), all_pure _⟩
  have hitem := item_le hall (List.mem_range.mp hi)
  exact all_bind.mpr ⟨readLE_inside.mpr (by omega), all_bind.mpr
    ⟨readHash_inside.mpr (by omega), all_pure _⟩⟩

/-! ## headers -/

section Headers

variable {env : HeadersEnv} {count : ℕ}

/-- Header `i` is inside the payload, and so is the index that is computed for it. -/
theorem header_inside
    (hlen : msg.length ≤ maxMsgLength)
    (hall : off + 81 * count ≤ msg.length)
    {i k len : ℕ}
    (hi : i < count)
    (hk : k + len ≤ 81) :
    wrap (off + 81 * i + k) + len ≤ msg.length := by
  have hitem := item_le hall hi
  have hmax : maxMsgLength < 2 ^ 64 := by decide
  rw [wrap_of_lt (by omega)]
  omega

theorem readTimestamp_inside
    (hlen : msg.length ≤ maxMsgLength)
    (hall : off + 81 * count ≤ msg.length)
    {i : ℕ}
    (hi : i < count) :
    Inside msg (readTimestamp msg off i) :=
  all_bind.mpr ⟨readLE_inside.mpr (header_inside hlen hall hi (by omega)), all_pure _⟩

theorem readHeader_inside
    (hlen : msg.length ≤ maxMsgLength)
    (hall : off + 81 * count ≤ msg.length)
    {i len : ℕ}
    (hi : i < count)
    (hle : len ≤ 81) :
    Inside msg (readBytes msg (wrap (off + 81 * i)) len) :=
  readBytes_inside.mpr (header_inside (k := 0) hlen hall hi (by omega))

theorem scanHeaders_inside
    (hlen : msg.length ≤ maxMsgLength)
    (hall : off + 81 * count ≤ msg.length) (n last : ℕ) :
    Inside msg (scanHeaders env msg off count n last) := by
  induction n generalizing last with
  | zero =>
      exact all_pure _
  | succ n ih =>
      refine all_ite.mpr ⟨fun hnext => ?_, fun _ => all_pure _⟩
      refine all_bind.mpr ⟨readTimestamp_inside hlen hall hnext, ?_⟩
      exact all_ite.mpr ⟨fun _ => ih _, fun _ => all_pure _⟩

/-- The scan stops behind at least one header and at most all of them. -/
theorem scanHeaders_value
    {n last : ℕ}
    (hn : 0 < n)
    (hle : last < count) :
    last < (scanHeaders env msg off count n last).value ∧
      (scanHeaders env msg off count n last).value ≤ count := by
  induction n generalizing last with
  | zero =>
      omega
  | succ n ih =>
      rw [scanHeaders]
      split_ifs with hnext
      · rw [Traced.value_bind]
        split_ifs
        · cases n with
          | zero =>
              exact ⟨Nat.lt_succ_self _, hnext.le⟩
          | succ n =>
              have hrest := ih (Nat.succ_pos n) hnext
              exact ⟨by omega, hrest.2⟩
        · exact ⟨Nat.lt_succ_self _, hnext.le⟩
      · exact ⟨Nat.lt_succ_self _, hle⟩

theorem relayHeaders_inside
    (hlen : msg.length ≤ maxMsgLength)
    (hall : off + 81 * count ≤ msg.length)
    {n i : ℕ}
    (hn : i + n ≤ count) (relayed : List PeerBlock) :
    Inside msg (relayHeaders env msg off n i relayed) := by
  induction n generalizing i relayed with
  | zero =>
      exact all_pure _
  | succ n ih =>
      refine all_bind.mpr ⟨readHeader_inside hlen hall (by omega) (by omega), ?_⟩
      exact all_ite.mpr ⟨fun _ => all_pure _, fun _ => ih (by omega) _⟩

theorem requestNext_inside
    (hlen : msg.length ≤ maxMsgLength)
    (hall : off + 81 * count ≤ msg.length)
    (hpos : 0 < count) (timestamp : UInt32) :
    Inside msg (requestNext env msg off count timestamp) := by
  refine all_bind.mpr ⟨readHeader_inside hlen hall (by omega) (by omega), all_bind.mpr
    ⟨readBytes_inside.mpr ?_, ?_⟩⟩
  · have hitem := item_le hall hpos
    omega
  · refine all_ite.mpr ⟨fun _ => ?_, fun _ => all_pure _⟩
    refine all_bind.mpr ⟨scanHeaders_inside hlen hall count 0, all_bind.mpr ⟨?_, all_pure _⟩⟩
    have hlast : 0 < (scanHeaders env msg off count count 0).value ∧
        (scanHeaders env msg off count count 0).value ≤ count := scanHeaders_value hpos hpos
    exact readHeader_inside hlen hall (by omega) (by omega)

theorem acceptHeaders_inside_iff
    (env : HeadersEnv)
    (hlen : msg.length ≤ maxMsgLength) :
    Inside msg (acceptHeaders env msg) ↔ (varInt msg 0).1 ≤ maxItems 81 := by
  refine counted_inside_iff (by omega) (by omega) (fun count => rfl) (fun hall => ?_)
  by_cases hpos : (varInt msg 0).1 > 0
  · refine all_bind.mpr ⟨?_, all_ite.mpr ⟨fun _ => ?_, fun _ => all_pure _⟩⟩
    · exact all_ite.mpr ⟨fun _ => readTimestamp_inside hlen hall (by omega), fun _ => all_pure _⟩
    · exact all_bind.mpr ⟨requestNext_inside hlen hall hpos _, all_bind.mpr
        ⟨relayHeaders_inside hlen hall (by omega) [], all_pure _⟩⟩
  · -- without headers nothing is near the key time
    refine all_bind.mpr ⟨?_, all_ite.mpr ⟨fun hnear => ?_, fun _ => all_pure _⟩⟩
    · exact all_ite.mpr ⟨fun h => absurd h hpos, fun _ => all_pure _⟩
    · rw [lastTimestamp, if_neg hpos, Traced.value_pure] at hnear
      rcases hnear with hmany | ⟨hzero, -⟩
      · omega
      · exact absurd hzero (by decide)

end Headers

/-! ## version and reject -/

/-- A sum that starts with a length of the payload. -/
theorem string_lt_iff
    (msg : List UInt8) (off before behind : ℕ)
    (hsmall : before + behind < 2 ^ 32) :
    before + (varInt msg off).2 + (varInt msg off).1 + behind < 2 ^ 64 ↔
      (varInt msg off).1 ≤ 2 ^ 64 - (before + behind + 10) := by
  have hlen := varInt_length msg off
  rcases varInt_lt msg off with h | h
  · constructor <;> intro <;> omega
  · rw [h]
    constructor <;> intro <;> omega

theorem acceptVersion_inside_iff
    (info : VersionInfo) (msg : List UInt8) :
    Inside msg (acceptVersion info msg) ↔
      (85 ≤ msg.length → (varInt msg 80).1 ≤ 2 ^ 64 - 94) := by
  have hiff := string_lt_iff msg 80 80 4 (by omega)
  rw [acceptVersion]
  by_cases hshort : 85 > msg.length
  · rw [if_pos hshort]
    exact iff_of_true (all_pure _) (fun h => absurd h (by omega))
  · have hlong : 85 ≤ msg.length := by omega
    rw [if_neg hshort]
    simp only [all_bind, readLE_inside, readBytes_inside, readVarInt_inside, true_and,
      lengthNeeded_inside]
    constructor
    · rintro ⟨-, -, -, -, -, -, -, -, -, -, hsum, -⟩ -
      exact hiff.mp hsum
    · intro hfits
      have hsum := hiff.mpr (hfits hlong)
      refine ⟨by omega, by omega, by omega, by omega, by omega, by omega, by omega, by omega,
        by omega, by omega, hsum, ?_⟩
      refine all_ite.mpr ⟨fun _ => all_pure _, fun hfit => ?_⟩
      have hall : 80 + (varInt msg 80).2 + (varInt msg 80).1 + 4 ≤ msg.length :=
        needed_le (p := False) hsum (fun h => hfit (h.resolve_left id))
      refine all_ite.mpr ⟨fun _ => all_pure _, fun _ => ?_⟩
      refine all_bind.mpr ⟨readBytes_inside.mpr ?_, all_bind.mpr
        ⟨readLE_inside.mpr ?_, all_pure _⟩⟩
      · change 80 + (varInt msg 80).2 + (varInt msg 80).1 ≤ msg.length
        omega
      · change wrap (80 + (varInt msg 80).2 + (varInt msg 80).1) + 4 ≤ msg.length
        rw [wrap_of_lt (by omega)]
        exact hall

theorem stringRoom_le
    (strLen : ℕ) :
    stringRoom strLen ≤ strLen := by
  rw [stringRoom]
  split_ifs <;> omega

/-- Where the second length of a reject message is. -/
def reasonOffset (msg : List UInt8) : ℕ :=
  (varInt msg 0).2 + (varInt msg 0).1 + 1

/-- The lengths of a reject message do not wrap. -/
def RejectFits (msg : List UInt8) : Prop :=
  (varInt msg 0).1 ≤ 2 ^ 64 - 11 ∧
    (reasonOffset msg ≤ msg.length →
      (varInt msg (reasonOffset msg)).1 ≤ 2 ^ 64 - (reasonOffset msg + 10))

theorem readReason_inside_iff
    (hlen : msg.length ≤ maxMsgLength)
    (hall : off ≤ msg.length) (type : List UInt8) (code : UInt8) :
    Inside msg (readReason msg type code off) ↔ (varInt msg off).1 ≤ 2 ^ 64 - (off + 10) := by
  have hmax : maxMsgLength = 2 ^ 25 := rfl
  have hvar := varInt_length msg off
  have hwrap : wrap (off + (varInt msg off).2) = off + (varInt msg off).2 :=
    wrap_of_lt (by omega)
  have hiff := string_lt_iff msg off off 0 (by omega)
  rw [Nat.add_zero] at hiff
  rw [← hiff]
  constructor
  · intro h
    have hsum := lengthNeeded_inside.mp (all_bind.mp (all_bind.mp h).2).1
    change wrap (off + (varInt msg off).2) + (varInt msg off).1 + 0 < 2 ^ 64 at hsum
    rwa [hwrap] at hsum
  · intro hsum
    have hsum' : wrap (off + (varInt msg off).2) + (varInt msg off).1 + 0 < 2 ^ 64 := by
      rwa [hwrap]
    refine all_bind.mpr ⟨readVarInt_inside msg off, all_bind.mpr
      ⟨lengthNeeded_inside.mpr hsum', all_ite.mpr ⟨fun _ => all_pure _, fun hfit => ?_⟩⟩⟩
    have hall' := needed_le (p := False) hsum' (fun h => hfit (h.resolve_left id))
    refine all_bind.mpr ⟨readString_inside ?_, all_pure _⟩
    have hroom := stringRoom_le (varInt msg off).1
    change wrap (off + (varInt msg off).2) + stringRoom (varInt msg off).1 ≤ msg.length
    omega

/-- Behind the first string of a reject message that fits. -/
theorem wrap_reasonOffset
    (hlen : msg.length ≤ maxMsgLength)
    (h : reasonOffset msg ≤ msg.length) :
    wrap ((varInt msg 0).2 + (varInt msg 0).1) = (varInt msg 0).2 + (varInt msg 0).1 ∧
      wrap (wrap ((varInt msg 0).2 + (varInt msg 0).1) + 1) = reasonOffset msg := by
  have hmax : maxMsgLength = 2 ^ 25 := rfl
  have hfirst : wrap ((varInt msg 0).2 + (varInt msg 0).1) =
      (varInt msg 0).2 + (varInt msg 0).1 := by
    rw [reasonOffset] at h
    exact wrap_of_lt (by omega)
  refine ⟨hfirst, ?_⟩
  rw [hfirst]
  exact wrap_of_lt (x := reasonOffset msg) (by omega)

theorem acceptReject_inside_iff
    (hlen : msg.length ≤ maxMsgLength) :
    Inside msg (acceptReject msg) ↔ RejectFits msg := by
  have hiff := string_lt_iff msg 0 0 1 (by omega)
  rw [Nat.zero_add] at hiff
  rw [RejectFits, ← hiff]
  constructor
  · intro h
    obtain ⟨hsum, hrest⟩ := all_bind.mp (all_bind.mp h).2
    replace hsum := lengthNeeded_inside.mp hsum
    refine ⟨hsum, fun hle => ?_⟩
    have hfit : ¬ wrap ((readVarInt msg 0).value.2 + (readVarInt msg 0).value.1 + 1) >
        msg.length := by
      rw [wrap_of_lt hsum]
      exact Nat.not_lt.mpr hle
    have hreason := (all_bind.mp (all_bind.mp ((all_ite.mp hrest).2 hfit)).2).2
    obtain ⟨-, hoff⟩ := wrap_reasonOffset hlen hle
    rw [← hoff] at hle ⊢
    exact (readReason_inside_iff hlen hle _ _).mp hreason
  · rintro ⟨hsum, hsecond⟩
    refine all_bind.mpr ⟨readVarInt_inside msg 0, all_bind.mpr
      ⟨lengthNeeded_inside.mpr hsum, all_ite.mpr ⟨fun _ => all_pure _, fun hfit => ?_⟩⟩⟩
    have hle : reasonOffset msg ≤ msg.length :=
      needed_le (p := False) hsum (fun h => hfit (h.resolve_left id))
    have hroom := stringRoom_le (varInt msg 0).1
    obtain ⟨hfirst, hsecondOff⟩ := wrap_reasonOffset hlen hle
    have hfits := hsecond hle
    refine all_bind.mpr ⟨readString_inside ?_, all_bind.mpr ⟨readLE_inside.mpr ?_, ?_⟩⟩
    · change (varInt msg 0).2 + stringRoom (varInt msg 0).1 ≤ msg.length
      rw [reasonOffset] at hle
      omega
    · change wrap ((varInt msg 0).2 + (varInt msg 0).1) + 1 ≤ msg.length
      rw [hfirst]
      exact hle
    · rw [← hsecondOff] at hle hfits
      exact (readReason_inside_iff hlen hle _ _).mpr hfits

/-! ## All handlers -/

/-- What the handlers use that is not in the payload. -/
structure HandlerEnv where
  info : VersionInfo
  sentGetaddr : Bool
  now : UInt64
  ctx : PeerContext
  requestedTx : UInt256 → Option RawTransaction
  headers : HeadersEnv

/-- The accesses of a handler to the payload. -/
def accesses (env : HandlerEnv) (msg : List UInt8) : MessageType → List Access
  | .version => (acceptVersion env.info msg).trace
  | .addr => (acceptAddr env.sentGetaddr env.now msg).trace
  | .inv => (acceptInv env.ctx msg).trace
  | .headers => (acceptHeaders env.headers msg).trace
  | .getdata => (acceptGetdata env.requestedTx msg).trace
  | .notfound => (acceptNotfound msg).trace
  | .reject => (acceptReject msg).trace
  | _ => []

/-- The lengths in a payload are small enough for the sums of its handler. -/
def LengthsFit (msg : List UInt8) : MessageType → Prop
  | .version => 85 ≤ msg.length → (varInt msg 80).1 ≤ 2 ^ 64 - 94
  | .addr => (varInt msg 0).1 ≤ maxItems 30
  | .headers => (varInt msg 0).1 ≤ maxItems 81
  | .inv | .getdata | .notfound => (varInt msg 0).1 ≤ maxItems 36
  | .reject => RejectFits msg
  | _ => True

/-- **Handlers stay inside the payload.**  Every read of a handler is inside
the payload and no sum that is compared with its length wraps, exactly if the
lengths that the payload holds are small enough. -/
theorem accesses_ok_iff
    (env : HandlerEnv) (type : MessageType) (msg : List UInt8)
    (hlen : msg.length ≤ maxMsgLength) :
    (∀ a ∈ accesses env msg type, a.Ok msg.length) ↔ LengthsFit msg type := by
  cases type with
  | version =>
      exact acceptVersion_inside_iff env.info msg
  | addr =>
      exact acceptAddr_inside_iff env.sentGetaddr env.now msg
  | inv =>
      exact acceptInv_inside_iff env.ctx msg
  | headers =>
      exact acceptHeaders_inside_iff env.headers hlen
  | getdata =>
      exact acceptGetdata_inside_iff env.requestedTx msg
  | notfound =>
      exact acceptNotfound_inside_iff msg
  | reject =>
      exact acceptReject_inside_iff hlen
  | _ =>
      exact iff_of_true (fun a ha => absurd ha List.not_mem_nil) trivial

/-- A peer before the first message, with hashes that are all zero. -/
def newEnv : HandlerEnv where
  info := {}
  sentGetaddr := false
  now := 0
  ctx := {}
  requestedTx _ := none
  headers := ⟨0, 0, fun _ => 0, fun _ => 0, fun _ => 0, 0⟩

/-- A notfound message of one item. -/
theorem accesses_ok_notfound :
    1 ≤ maxItems 36 ∧ ∀ a ∈ accesses newEnv (1 :: List.replicate 36 0) .notfound, a.Ok 37 := by
  have hitems : 1 ≤ maxItems 36 := by
    decide
  refine ⟨hitems, ?_⟩
  exact (accesses_ok_iff newEnv .notfound (1 :: List.replicate 36 0) (by decide)).mpr hitems

/-- The nine bytes of the length `2^64 - 10`, as a reject message: the sum wraps
to zero, and the string is read behind the payload. -/
theorem not_accesses_ok :
    ¬ ∀ (env : HandlerEnv) (type : MessageType) (msg : List UInt8),
      msg.length ≤ maxMsgLength → ∀ a ∈ accesses env msg type, a.Ok msg.length := by
  intro hclaim
  have hread := hclaim newEnv .reject [0xff, 0xf6, 0xff, 0xff, 0xff, 0xff, 0xff, 0xff, 0xff]
    (by decide) (.read 9 0xfff) (by decide +kernel)
  change 9 + 0xfff ≤ 9 at hread
  omega

end Payload

end BreadwalletCore
