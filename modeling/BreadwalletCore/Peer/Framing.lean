import Mathlib.Data.List.TakeWhile
import BreadwalletCore.Data.ChunkedReader
import BreadwalletCore.Peer.Payload

/-!
# Framing

The loops of `_peerThreadRoutine` that read the header and the payload of a
message, and `BRPeerSendMessage`.  What stands between two calls of `read` is
`Reader.received`; the bytes of the two buffers up to `len` are in the state.

Timeouts and errors of the socket are left out, as is the ping that is sent when
a mempool response is late.
-/

namespace BreadwalletCore

open Segment (slice)

/-- `MAGIC_NUMBER` of the main network. -/
def magicNumber : ℕ := 0xd9b4bef9

/-- `HEADER_LENGTH`. -/
def headerLength : ℕ := 24

/-- A message, as it is passed to `_BRPeerAcceptMessage`. -/
structure Message where
  type : List UInt8
  payload : List UInt8
deriving DecidableEq

/-- What the loops use besides the bytes: the hash, and whether the handler of
a message that follows others accepts it and leaves the socket open. -/
structure FramingEnv where
  /-- `BRSHA256_2` -/
  sha256_2 : List UInt8 → UInt256
  acceptMessage : List Message → Message → Bool

namespace Framing

/-- Where the thread waits for bytes. -/
inductive Phase
  /-- the first loop -/
  | header (header : List UInt8)
  /-- the second loop -/
  | payload (type : List UInt8) (msgLen checksum : ℕ) (payload : List UInt8)
  /-- behind the loops -/
  | closed
deriving DecidableEq

/-- The place of the thread, and the messages passed on so far. -/
structure State where
  phase : Phase := .header []
  passed : List Message := []
deriving DecidableEq

/-- `while (sizeof(uint32_t) <= len && UInt32GetLE(header) != MAGIC_NUMBER)`,
which consumes one byte at a time. -/
def findMagic : List UInt8 → List UInt8
  | [] => []
  | b :: l =>
      if 4 ≤ (b :: l).length ∧ LittleEndian.value ((b :: l).take 4) ≠ magicNumber then findMagic l
      else b :: l

/-- The first four bytes of the hash. -/
def checksum (env : FramingEnv) (payload : List UInt8) : List UInt8 :=
  (hashBytes (env.sha256_2 payload)).take 4

/-- What follows the second loop. -/
def payloadDone (env : FramingEnv) (passed : List Message) (type : List UInt8) (sum : ℕ)
    (payload : List UInt8) : State :=
  if LittleEndian.value (checksum env payload) ≠ sum then ⟨.closed, passed⟩
  else if env.acceptMessage passed ⟨type, payload⟩ then
    ⟨.header [], passed ++ [⟨type, payload⟩]⟩
  else ⟨.closed, passed ++ [⟨type, payload⟩]⟩

/-- What follows the first loop.  The second one is passed by for an empty
payload. -/
def headerDone (env : FramingEnv) (passed : List Message) (header : List UInt8) : State :=
  if header.getD 15 0 ≠ 0 then ⟨.closed, passed⟩
  else
    let type := (slice header 4 12).takeWhile (· ≠ 0)
    let msgLen := LittleEndian.value (slice header 16 4)
    let sum := LittleEndian.value (slice header 20 4)
    if maxMsgLength < msgLen then ⟨.closed, passed⟩
    else if 0 < msgLen then ⟨.payload type msgLen sum [], passed⟩
    else payloadDone env passed type sum []

/-- What `read` is asked for. -/
def capacity (s : State) : ℕ :=
  match s.phase with
  | .header header => headerLength - header.length
  | .payload _ msgLen _ payload => msgLen - payload.length
  | .closed => 0

/-- From one call of `read`, which returned some bytes, to the next. -/
def received (env : FramingEnv) (s : State) (bytes : List UInt8) : State :=
  match s.phase with
  | .header header =>
      let header := findMagic (header ++ bytes)
      if header.length < headerLength then { s with phase := .header header }
      else headerDone env s.passed header
  | .payload type msgLen sum payload =>
      let payload := payload ++ bytes
      if payload.length < msgLen then { s with phase := .payload type msgLen sum payload }
      else payloadDone env s.passed type sum payload
  | .closed => s

/-! ## Sending -/

/-- `strncpy(&buf[off], type, 12)`. -/
def typeField (type : List UInt8) : List UInt8 :=
  let chars := (type.takeWhile (· ≠ 0)).take 12
  chars ++ List.replicate (12 - chars.length) 0

/-- The magic number. -/
def magicBytes : List UInt8 :=
  LittleEndian.bytes 4 magicNumber

/-- The header that `BRPeerSendMessage` writes, behind the magic number. -/
def frameFields (env : FramingEnv) (m : Message) : List UInt8 :=
  typeField m.type ++
    (LittleEndian.bytes 4 (m.payload.length % 2 ^ 32) ++ checksum env m.payload)

/-- The header that `BRPeerSendMessage` writes. -/
def frameHeader (env : FramingEnv) (m : Message) : List UInt8 :=
  magicBytes ++ frameFields env m

/-- The bytes that `BRPeerSendMessage` sends. -/
def sendMessage (env : FramingEnv) (m : Message) : List UInt8 :=
  if maxMsgLength < m.payload.length then []
  else frameHeader env m ++ m.payload

/-- Messages sent back to back. -/
def sendMessages (env : FramingEnv) (messages : List Message) : List UInt8 :=
  messages.flatMap (sendMessage env)

/-- A message that is sent as it is. -/
structure Sendable (m : Message) : Prop where
  type_length : m.type.length ≤ 11
  type_chars : ∀ b ∈ m.type, b ≠ 0
  payload_length : m.payload.length ≤ maxMsgLength

/-- Each message is accepted behind the ones in front of it. -/
def Accepts (env : FramingEnv) (messages : List Message) : Prop :=
  ∀ front m back, messages = front ++ m :: back → env.acceptMessage front m = true

/-- The magic number does not start in the first `n` bytes. -/
def NoMagic (stream : List UInt8) (n : ℕ) : Prop :=
  ∀ i < n, slice stream i 4 ≠ magicBytes

/-! ## The loops as a reader -/

section Reader

theorem length_findMagic_le
    (l : List UInt8) :
    (findMagic l).length ≤ l.length := by
  induction l with
  | nil =>
      exact le_rfl
  | cons b l ih =>
      rw [findMagic]
      split
      · exact ih.trans (Nat.le_succ _)
      · exact le_rfl

/-- Bytes can be dropped before or after more have come. -/
theorem findMagic_append
    (l m : List UInt8) :
    findMagic (findMagic l ++ m) = findMagic (l ++ m) := by
  induction l with
  | nil =>
      rfl
  | cons b l ih =>
      rw [findMagic]
      split
      · rename_i h
        have htake : (b :: l ++ m).take 4 = (b :: l).take 4 :=
          List.take_append_of_le_length h.1
        have hlen : 4 ≤ (b :: l ++ m).length := by
          rw [List.length_append]
          omega
        have hdrop : findMagic (b :: l ++ m) = findMagic (l ++ m) := by
          rw [← htake] at h
          exact if_pos ⟨hlen, h.2⟩
        rw [ih, hdrop]
      · rfl

variable (env : FramingEnv) {passed : List Message}

/-- A header that is not complete. -/
theorem received_header
    {header a : List UInt8}
    (h : header.length + a.length < headerLength) :
    received env ⟨.header header, passed⟩ a = ⟨.header (findMagic (header ++ a)), passed⟩ := by
  have hle := length_findMagic_le (header ++ a)
  rw [List.length_append] at hle
  exact if_pos (hle.trans_lt h)

/-- A header that is complete. -/
theorem headerDone_of_received
    {header a : List UInt8}
    (h : ¬ (findMagic (header ++ a)).length < headerLength) :
    received env ⟨.header header, passed⟩ a =
      headerDone env passed (findMagic (header ++ a)) :=
  if_neg h

/-- A payload that is not complete. -/
theorem received_payload
    {type payload a : List UInt8} {msgLen sum : ℕ}
    (h : payload.length + a.length < msgLen) :
    received env ⟨.payload type msgLen sum payload, passed⟩ a =
      ⟨.payload type msgLen sum (payload ++ a), passed⟩ := by
  rw [← List.length_append] at h
  exact if_pos h

theorem received_room
    (s : State) (a : List UInt8)
    (h : a.length < capacity s) :
    capacity s ≤ a.length + capacity (received env s a) := by
  obtain ⟨phase, passed⟩ := s
  cases phase with
  | header header =>
      change a.length < headerLength - header.length at h
      have hle := length_findMagic_le (header ++ a)
      rw [List.length_append] at hle
      rw [received_header env (by omega)]
      change headerLength - _ ≤ a.length + (headerLength - _)
      omega
  | payload type msgLen sum payload =>
      change a.length < msgLen - payload.length at h
      rw [received_payload env (by omega)]
      change msgLen - _ ≤ a.length + (msgLen - (payload ++ a).length)
      rw [List.length_append]
      omega
  | closed =>
      exact Nat.zero_le _

theorem received_split
    (s : State) (a b : List UInt8)
    (hb : b ≠ [])
    (h : (a ++ b).length ≤ capacity s) :
    received env s (a ++ b) = received env (received env s a) b := by
  have hpos := List.length_pos_iff.mpr hb
  obtain ⟨phase, passed⟩ := s
  rw [List.length_append] at h
  cases phase with
  | header header =>
      change a.length + b.length ≤ headerLength - header.length at h
      have hfirst : received env ⟨.header header, passed⟩ a =
          ⟨.header (findMagic (header ++ a)), passed⟩ := received_header env (by omega)
      rw [hfirst]
      simp only [received, findMagic_append, List.append_assoc]
  | payload type msgLen sum payload =>
      change a.length + b.length ≤ msgLen - payload.length at h
      have hfirst : received env ⟨.payload type msgLen sum payload, passed⟩ a =
          ⟨.payload type msgLen sum (payload ++ a), passed⟩ := received_payload env (by omega)
      rw [hfirst]
      simp only [received, List.append_assoc]
  | closed =>
      rfl

/-- The two loops. -/
def reader : ChunkedReader State UInt8 where
  capacity := capacity
  received := received env
  room := received_room env
  split := received_split env

theorem reader_received :
    (reader env).received = received env := by
  rfl

end Reader

/-! ## Frames -/

section Frames

variable {env : FramingEnv} {m : Message} {passed : List Message}

theorem length_magicBytes :
    magicBytes.length = 4 := by
  rfl

theorem length_typeField
    (type : List UInt8) :
    (typeField type).length = 12 := by
  simp only [typeField, List.length_append, List.length_replicate, List.length_take]
  omega

theorem length_checksum
    (env : FramingEnv) (payload : List UInt8) :
    (checksum env payload).length = 4 := by
  rw [checksum, List.length_take, length_hashBytes]
  rfl

theorem length_frameFields
    (env : FramingEnv) (m : Message) :
    (frameFields env m).length = 20 := by
  simp only [frameFields, List.length_append, length_typeField, LittleEndian.length_bytes,
    length_checksum]

theorem length_frameHeader
    (env : FramingEnv) (m : Message) :
    (frameHeader env m).length = 24 := by
  rw [frameHeader, List.length_append, length_magicBytes, length_frameFields]

/-- Behind a magic number nothing is dropped. -/
theorem findMagic_magicBytes
    (l : List UInt8) :
    findMagic (magicBytes ++ l) = magicBytes ++ l := by
  have hvalue : LittleEndian.value magicBytes = magicNumber := by
    decide
  have htake : (magicBytes ++ l).take 4 = magicBytes := List.take_left' length_magicBytes
  have hcons : ∃ b l', magicBytes ++ l = b :: l' := ⟨_, _, rfl⟩
  obtain ⟨b, l', hcons⟩ := hcons
  rw [hcons] at htake ⊢
  rw [findMagic, htake, if_neg]
  exact fun h => h.2 hvalue

theorem value_eq_magic_iff
    {l : List UInt8}
    (h : l.length = 4) :
    LittleEndian.value l = magicNumber ↔ l = magicBytes := by
  constructor
  · intro hvalue
    rw [← LittleEndian.bytes_value l, hvalue, h]
    rfl
  · rintro rfl
    decide

theorem findMagic_of_short
    {l : List UInt8}
    (h : l.length < 4) :
    findMagic l = l := by
  cases l with
  | nil =>
      rfl
  | cons b l =>
      rw [findMagic, if_neg]
      omega

/-- Four other bytes lose the first one. -/
theorem findMagic_of_four
    {l : List UInt8}
    (hlen : l.length = 4)
    (hne : l ≠ magicBytes) :
    findMagic l = l.drop 1 := by
  have hvalue : LittleEndian.value (l.take 4) ≠ magicNumber := by
    rw [List.take_of_length_le hlen.le]
    exact fun h => hne ((value_eq_magic_iff hlen).mp h)
  cases l with
  | nil =>
      rfl
  | cons b l =>
      rw [List.length_cons] at hlen
      rw [findMagic, if_pos ⟨hlen.ge, hvalue⟩, findMagic_of_short (by omega)]
      rfl

/-- One byte, where up to three were kept. -/
theorem feedOne_header
    {kept : List UInt8}
    (hkept : kept.length ≤ 3)
    (b : UInt8)
    (hne : kept ++ [b] ≠ magicBytes) :
    (reader env).feedOne ⟨.header kept, passed⟩ b =
      ⟨.header ((kept ++ [b]).drop (kept.length + 1 - 3)), passed⟩ := by
  have hlen : (kept ++ [b]).length = kept.length + 1 := List.length_append
  have hlt : kept.length + [b].length < headerLength := by
    rw [headerLength, List.length_singleton]
    omega
  have hcap : (reader env).capacity ⟨.header kept, passed⟩ ≠ 0 := by
    change 24 - kept.length ≠ 0
    omega
  have hnext : findMagic (kept ++ [b]) = (kept ++ [b]).drop (kept.length + 1 - 3) := by
    rcases hkept.eq_or_lt with hfull | hshort
    · rw [findMagic_of_four (by omega) hne, hfull]
    · rw [findMagic_of_short (by omega), Nat.sub_eq_zero_of_le (by omega), List.drop_zero]
  rw [ChunkedReader.feedOne, if_neg hcap, reader_received, received_header env hlt, hnext]

/-- Without a magic number, up to three bytes are kept. -/
theorem feed_noMagic
    {l kept : List UInt8}
    (hkept : kept.length ≤ 3)
    (h : ∀ i, i + 4 ≤ (kept ++ l).length → slice (kept ++ l) i 4 ≠ magicBytes) :
    (reader env).feed ⟨.header kept, passed⟩ l =
      ⟨.header ((kept ++ l).drop ((kept ++ l).length - 3)), passed⟩ := by
  induction l generalizing kept with
  | nil =>
      rw [List.append_nil, Nat.sub_eq_zero_of_le hkept, List.drop_zero]
      rfl
  | cons b l ih =>
      have happend : kept ++ b :: l = kept ++ [b] ++ l := by
        rw [List.append_assoc, List.singleton_append]
      have hlen : (kept ++ [b]).length = kept.length + 1 := List.length_append
      have hne : kept ++ [b] ≠ magicBytes := by
        intro heq
        have hfour := congrArg List.length heq
        rw [hlen, length_magicBytes] at hfour
        refine h 0 (by rw [happend, List.length_append]; omega) ?_
        rw [slice, List.drop_zero, happend, List.take_left' (by omega), heq]
      have hdrop : (kept ++ [b]).drop (kept.length + 1 - 3) ++ l =
          (kept ++ b :: l).drop (kept.length + 1 - 3) := by
        have hle : kept.length + 1 - 3 ≤ (kept ++ [b]).length := by omega
        rw [happend]
        exact (List.drop_append_of_le_length hle).symm
      have hstep : (reader env).feed ⟨.header kept, passed⟩ (b :: l) =
          (reader env).feed ⟨.header ((kept ++ [b]).drop (kept.length + 1 - 3)), passed⟩ l :=
        congrArg (fun s => (reader env).feed s l) (feedOne_header hkept b hne)
      rw [hstep, ih (by rw [List.length_drop]; omega) ?_, hdrop, List.drop_drop, List.length_drop,
        happend, List.length_append, hlen]
      · congr 3
        omega
      · intro i hi
        rw [hdrop, List.length_drop] at hi
        rw [hdrop, slice, List.drop_drop]
        exact h _ (by omega)

theorem feed_noMagic_nil
    (env : FramingEnv) (passed : List Message)
    {l : List UInt8}
    (h : ∀ i, i + 4 ≤ l.length → slice l i 4 ≠ magicBytes) :
    (reader env).feed ⟨.header [], passed⟩ l = ⟨.header (l.drop (l.length - 3)), passed⟩ :=
  feed_noMagic (Nat.zero_le 3) h

/-- Bytes in front of a magic number are dropped. -/
theorem feed_junk
    {junk : List UInt8}
    (h : NoMagic (junk ++ magicBytes) junk.length) :
    (reader env).feed ⟨.header [], passed⟩ (junk ++ magicBytes) =
      ⟨.header magicBytes, passed⟩ := by
  -- all but the last byte of the magic number
  have hsplit : junk ++ magicBytes = junk ++ magicBytes.take 3 ++ magicBytes.drop 3 := by
    rw [List.append_assoc, List.take_append_drop]
  have hlen : (junk ++ magicBytes.take 3).length = junk.length + 3 := by
    rw [List.length_append]
    rfl
  have hnone : ∀ i, i + 4 ≤ (junk ++ magicBytes.take 3).length →
      slice (junk ++ magicBytes.take 3) i 4 ≠ magicBytes := by
    intro i hi
    rw [hlen] at hi
    have hno := h i (by omega)
    rw [hsplit, slice, List.drop_append_of_le_length (by omega),
      List.take_append_of_le_length (by rw [List.length_drop]; omega)] at hno
    exact hno
  have hfirst := feed_noMagic_nil env passed hnone
  rw [hlen, Nat.add_sub_cancel, List.drop_left] at hfirst
  rw [hsplit, ChunkedReader.feed_append, hfirst]
  rfl

end Frames

section Messages

variable {env : FramingEnv} {m : Message} {passed : List Message}

theorem takeWhile_typeField
    (hm : Sendable m) :
    (typeField m.type).takeWhile (· ≠ 0) = m.type := by
  have hchars : m.type.takeWhile (· ≠ 0) = m.type :=
    List.takeWhile_eq_self_iff.mpr fun b hb => by simpa using hm.type_chars b hb
  have hlen := hm.type_length
  have htake : m.type.take 12 = m.type := List.take_of_length_le (by omega)
  obtain ⟨n, hn⟩ : ∃ n, 12 - m.type.length = n + 1 := ⟨11 - m.type.length, by omega⟩
  simp only [typeField, hchars, htake, hn, List.replicate_succ]
  rw [List.takeWhile_append_of_pos fun b hb => by simpa using hm.type_chars b hb,
    List.takeWhile_cons_of_neg (by simp), List.append_nil]

/-- The header of a frame is complete, and announces the payload. -/
theorem headerDone_frameHeader
    (hm : Sendable m) :
    headerDone env passed (frameHeader env m) =
      if 0 < m.payload.length then
        ⟨.payload m.type m.payload.length (LittleEndian.value (checksum env m.payload)) [], passed⟩
      else payloadDone env passed m.type (LittleEndian.value (checksum env m.payload)) [] := by
  have hmax : maxMsgLength = 2 ^ 25 := rfl
  have hlen := hm.payload_length
  have hmod : m.payload.length % 2 ^ 32 = m.payload.length := Nat.mod_eq_of_lt (by omega)
  have htype : slice (frameHeader env m) 4 12 = typeField m.type := by
    rw [slice, frameHeader, frameFields, List.drop_left' length_magicBytes,
      List.take_left' (length_typeField _)]
  have hbytes : slice (frameHeader env m) 16 4 = LittleEndian.bytes 4 m.payload.length := by
    rw [slice, frameHeader, frameFields, ← List.append_assoc, List.drop_left'
      (by rw [List.length_append, length_magicBytes, length_typeField]),
      List.take_left' (LittleEndian.length_bytes _ _), hmod]
  have hsum : slice (frameHeader env m) 20 4 = checksum env m.payload := by
    rw [slice, frameHeader, frameFields, ← List.append_assoc, ← List.append_assoc, List.drop_left'
      (by simp only [List.length_append, length_magicBytes, length_typeField,
        LittleEndian.length_bytes]), List.take_of_length_le (length_checksum _ _).le]
  have hterminated : (frameHeader env m).getD 15 0 = 0 := by
    have hlast : (frameHeader env m)[15]? = (typeField m.type)[11]? := by
      rw [frameHeader, frameFields, List.getElem?_append_right (by rw [length_magicBytes]; omega),
        List.getElem?_append_left (by rw [length_magicBytes, length_typeField]; omega)]
      rfl
    have hchars : ((m.type.takeWhile (· ≠ 0)).take 12).length ≤ 11 := by
      have hle := (List.takeWhile_sublist (fun b : UInt8 => decide (b ≠ 0)) (l := m.type)).length_le
      have hshort := hm.type_length
      rw [List.length_take]
      omega
    rw [List.getD_eq_getElem?_getD, hlast, typeField, List.getElem?_append_right hchars,
      List.getElem?_replicate]
    split <;> rfl
  have hvalue : LittleEndian.value (LittleEndian.bytes 4 m.payload.length) = m.payload.length :=
    LittleEndian.value_bytes (by omega)
  rw [headerDone, if_neg (not_not.mpr hterminated)]
  simp only [htype, hbytes, hsum, hvalue, takeWhile_typeField hm]
  rw [if_neg (Nat.not_lt.mpr hlen)]

theorem payloadDone_accepted
    (haccept : env.acceptMessage passed m = true) :
    payloadDone env passed m.type (LittleEndian.value (checksum env m.payload)) m.payload =
      ⟨.header [], passed ++ [m]⟩ := by
  rw [payloadDone, if_neg (not_not.mpr rfl), if_pos haccept]

/-- Behind the magic number, a frame is passed on. -/
theorem feed_behindMagic
    (hm : Sendable m)
    (haccept : env.acceptMessage passed m = true) :
    (reader env).feed ⟨.header magicBytes, passed⟩ (frameFields env m ++ m.payload) =
      ⟨.header [], passed ++ [m]⟩ := by
  have hfields := length_frameFields env m
  have hroom : (frameFields env m).length ≤ (reader env).capacity ⟨.header magicBytes, passed⟩ := by
    rw [hfields]
    exact le_rfl
  have hheader : (reader env).feed ⟨.header magicBytes, passed⟩ (frameFields env m) =
      headerDone env passed (frameHeader env m) := by
    have hfind : findMagic (magicBytes ++ frameFields env m) = frameHeader env m :=
      findMagic_magicBytes _
    have hfull : ¬ (findMagic (magicBytes ++ frameFields env m)).length < headerLength := by
      rw [hfind, length_frameHeader, headerLength]
      omega
    have hdone : received env ⟨.header magicBytes, passed⟩ (frameFields env m) =
        headerDone env passed (findMagic (magicBytes ++ frameFields env m)) :=
      headerDone_of_received env hfull
    rw [ChunkedReader.feed_eq_received (List.ne_nil_of_length_pos (by omega)) hroom,
      reader_received, hdone, hfind]
  rw [ChunkedReader.feed_append, hheader, headerDone_frameHeader hm]
  by_cases hpos : 0 < m.payload.length
  · rw [if_pos hpos, ChunkedReader.feed_eq_received (List.ne_nil_of_length_pos hpos) le_rfl]
    refine (if_neg ?_).trans (payloadDone_accepted haccept)
    exact lt_irrefl _
  · have hnil : m.payload = [] := List.eq_nil_of_length_eq_zero (by omega)
    have hdone := payloadDone_accepted haccept
    rw [hnil] at hdone
    rw [if_neg hpos, hnil, hdone]
    rfl

/-- A frame is passed on, and what is in front of it is dropped. -/
theorem feed_frame
    {junk : List UInt8}
    (hm : Sendable m)
    (haccept : env.acceptMessage passed m = true)
    (hjunk : NoMagic (junk ++ magicBytes) junk.length) :
    (reader env).feed ⟨.header [], passed⟩ (junk ++ sendMessage env m) =
      ⟨.header [], passed ++ [m]⟩ := by
  have hsend : junk ++ sendMessage env m =
      junk ++ magicBytes ++ (frameFields env m ++ m.payload) := by
    rw [sendMessage, if_neg (Nat.not_lt.mpr hm.payload_length), frameHeader]
    simp only [List.append_assoc]
  rw [hsend, ChunkedReader.feed_append, feed_junk hjunk, feed_behindMagic hm haccept]

/-- Frames are passed on in their order. -/
theorem feed_sendMessages
    {messages : List Message}
    (hm : ∀ m ∈ messages, Sendable m)
    (haccept : ∀ front m back, messages = front ++ m :: back →
      env.acceptMessage (passed ++ front) m = true) :
    (reader env).feed ⟨.header [], passed⟩ (sendMessages env messages) =
      ⟨.header [], passed ++ messages⟩ := by
  induction messages generalizing passed with
  | nil =>
      rw [List.append_nil]
      rfl
  | cons m messages ih =>
      have hfirst : env.acceptMessage passed m = true := by
        have h := haccept [] m messages rfl
        rwa [List.append_nil] at h
      have hframe : (reader env).feed ⟨.header [], passed⟩ ([] ++ sendMessage env m) =
          ⟨.header [], passed ++ [m]⟩ :=
        feed_frame (hm m List.mem_cons_self) hfirst fun i hi => absurd hi (Nat.not_lt_zero i)
      rw [List.nil_append] at hframe
      rw [sendMessages, List.flatMap_cons, ChunkedReader.feed_append, hframe]
      change (reader env).feed _ (sendMessages env messages) = _
      rw [ih (fun m' h => hm m' (List.mem_cons_of_mem m h)) ?_, List.append_assoc,
        List.singleton_append]
      intro front m' back h
      rw [List.append_assoc]
      exact haccept (m :: front) m' back (congrArg (m :: ·) h)

/-- A stream ends in one state, whatever the reads return, and messages that are
sent back to back are passed on, behind bytes without a magic number. -/
theorem framing
    (env : FramingEnv) :
    (∀ stream, ∃! s, (reader env).Runs {} stream s) ∧
    ∀ (junk : List UInt8) (messages : List Message), (∀ m ∈ messages, Sendable m) →
      Accepts env messages → NoMagic (junk ++ sendMessages env messages) junk.length →
      ∀ s, (reader env).Runs {} (junk ++ sendMessages env messages) s → s.passed = messages := by
  constructor
  · intro stream
    exact ⟨_, ChunkedReader.runs_feed _ _, fun s hs => ChunkedReader.runs_iff.mp hs⟩
  · intro junk messages hm haccept hjunk s hs
    rw [ChunkedReader.runs_iff.mp hs]
    cases messages with
    | nil =>
        rw [sendMessages, List.flatMap_nil, List.append_nil] at hjunk ⊢
        exact congrArg State.passed (feed_noMagic_nil env [] fun i hi => hjunk i (by omega))
    | cons m messages =>
        have hsplit : junk ++ sendMessages env (m :: messages) =
            junk ++ sendMessage env m ++ sendMessages env messages := by
          rw [sendMessages, List.flatMap_cons, ← List.append_assoc]
          rfl
        have hmagic : NoMagic (junk ++ magicBytes) junk.length := by
          intro i hi
          have hno := hjunk i hi
          have hrest : ∃ rest, junk ++ sendMessages env (m :: messages) =
              junk ++ magicBytes ++ rest := by
            rw [hsplit, sendMessage,
              if_neg (Nat.not_lt.mpr (hm m List.mem_cons_self).payload_length), frameHeader]
            refine ⟨frameFields env m ++ m.payload ++ sendMessages env messages, ?_⟩
            simp only [List.append_assoc]
          obtain ⟨rest, hrest⟩ := hrest
          have hlen : (junk ++ magicBytes).length = junk.length + 4 := List.length_append
          rw [hrest, slice, List.drop_append_of_le_length (by omega),
            List.take_append_of_le_length (by rw [List.length_drop]; omega)] at hno
          exact hno
        have hfirst := feed_frame (hm m List.mem_cons_self) (haccept [] m messages rfl) hmagic
        have hothers : (reader env).feed ⟨.header [], [m]⟩ (sendMessages env messages) =
            ⟨.header [], [m] ++ messages⟩ := feed_sendMessages
          (fun m' h => hm m' (List.mem_cons_of_mem m h))
          (fun front m' back h => haccept (m :: front) m' back (congrArg (m :: ·) h))
        rw [hsplit, ChunkedReader.feed_append]
        change ((reader env).feed ((reader env).feed ⟨.header [], []⟩ _) _).passed = _
        rw [hfirst, List.nil_append, hothers]
        rfl

/-- A byte and a message without a payload. -/
theorem framing_verack :
    ((reader ⟨fun _ => 7, fun _ _ => true⟩).feed {}
      ([0x11] ++ sendMessages ⟨fun _ => 7, fun _ _ => true⟩
        [⟨[0x76, 0x65, 0x72, 0x61, 0x63, 0x6b], []⟩])).passed =
      [⟨[0x76, 0x65, 0x72, 0x61, 0x63, 0x6b], []⟩] := by
  have hjunk : NoMagic ([0x11] ++ sendMessages ⟨fun _ => 7, fun _ _ => true⟩
      [⟨[0x76, 0x65, 0x72, 0x61, 0x63, 0x6b], []⟩]) 1 := by
    intro i hi h
    obtain rfl : i = 0 := Nat.lt_one_iff.mp hi
    have hhead := congrArg List.head? h
    change some (0x11 : UInt8) = some 0xf9 at hhead
    exact absurd hhead (by decide)
  have hpassed := (framing ⟨fun _ => 7, fun _ _ => true⟩).2 [0x11] _
    (List.forall_mem_singleton.mpr ⟨by decide, by simp, Nat.zero_le _⟩) (fun _ _ _ _ => rfl)
    hjunk _ (ChunkedReader.runs_feed _ _)
  exact hpassed

end Messages

end Framing
end BreadwalletCore
