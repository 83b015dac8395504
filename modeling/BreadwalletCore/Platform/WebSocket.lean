import BreadwalletCore.Data.LittleEndian

/-!
# The WebSocket receiver

`BRWebSocketImpl.parseMessage`, which takes the bytes of a socket one by one, and
`handlePacket`, which gets the frames and hands the messages to the client.

* The calls to the client and the frames put into `sendq` are events.  A string
  is given by its UTF-8 bytes.
* `utf8` says which bytes `String(bytes:encoding:)` accepts.
* The frames of a client are `Frame`; what they are meant to deliver is said by
  `Monitor`, without the receiver.
-/

namespace BreadwalletCore

/-! ## The receiver -/

inductive SocketState
  | headerb1
  | headerb2
  | lengthshort
  | lengthlong
  | mask
  | payload
deriving DecidableEq

inductive SocketOpcode
  | stream
  | text
  | binary
  | close
  | ping
  | pong
deriving DecidableEq

def SocketOpcode.rawValue : SocketOpcode → UInt8
  | .stream => 0x0
  | .text => 0x1
  | .binary => 0x2
  | .close => 0x8
  | .ping => 0x9
  | .pong => 0xA

def SocketOpcode.ofRawValue (b : UInt8) : Option SocketOpcode :=
  [SocketOpcode.stream, .text, .binary, .close, .ping, .pong].find?
    (fun o => o.rawValue = b)

/-- `MAXPAYLOAD`. -/
def maxPayload : ℕ := 33554432

/-- The raw values of `SocketCloseEventCode`. -/
def socketCloseEventCodes : List ℕ :=
  [1000, 1001, 1002, 1003, 1005, 1004, 1006, 1007, 1008, 1009, 1010, 1011, 1012, 1015]

def closeNormal : ℕ := 1000

def closeProtocolError : ℕ := 1002

/-- `BRWebSocketImpl`, without the socket and its request. -/
structure BRWebSocketImpl where
  state : SocketState := .headerb1
  fin : UInt8 := 0
  hasMask : Bool := false
  opcode : SocketOpcode := .stream
  closed : Bool := false
  index : ℕ := 0
  length : ℕ := 0
  lengtharray : List UInt8 := []
  lengtharrayWritten : ℕ := 0
  data : List UInt8 := []
  dataWritten : ℕ := 0
  maskarray : List UInt8 := []
  maskarrayWritten : ℕ := 0
  fragStart : Bool := false
  fragType : SocketOpcode := .binary
  fragBuffer : List UInt8 := []
deriving DecidableEq

/-- A call to the client, or an entry put into `sendq`. -/
inductive SocketEvent
  | didReceiveText (text : List UInt8)
  | didReceiveData (data : List UInt8)
  | sendq (opcode : SocketOpcode) (payload : List UInt8)
deriving DecidableEq

/-- The number that the bytes give in network order. -/
def networkValue (bytes : List UInt8) : ℕ :=
  LittleEndian.value bytes.reverse

/-- `toNetwork` of a number of `k` bytes. -/
def toNetwork (k n : ℕ) : List UInt8 :=
  (LittleEndian.bytes k n).reverse

/-- `sendMessage`, which sets the final bit if its argument `fin` is false. -/
def sendMessage (fin : Bool) (opcode : SocketOpcode) (data : List UInt8) : SocketEvent :=
  let b1 := (if fin then 0 else 0x80) ||| opcode.rawValue
  .sendq opcode (b1 ::
    ((if data.length ≤ 125 then [UInt8.ofNat data.length]
      else if data.length ≤ 65535 then 126 :: toNetwork 2 data.length
      else 127 :: toNetwork 8 data.length) ++ data))

namespace BRWebSocketImpl

/-- The bytes of "bad UTF8 data". -/
def badUTF8Data : List UInt8 :=
  [0x62, 0x61, 0x64, 0x20, 0x55, 0x54, 0x46, 0x38, 0x20, 0x64, 0x61, 0x74, 0x61]

/-- `close`. -/
def close (s : BRWebSocketImpl) (status : ℕ) (reason : List UInt8) :
    BRWebSocketImpl × List SocketEvent :=
  ({ s with closed := true },
    if s.closed then [] else [sendMessage false .close (toNetwork 2 status ++ reason)])

/-- The status and the reason of a close frame. -/
def closeStatus (utf8 : List UInt8 → Bool) (s : BRWebSocketImpl) : ℕ × List UInt8 :=
  if s.dataWritten ≥ 2 then
    let ll := networkValue (s.data.take 2)
    let status := if ll ∈ socketCloseEventCodes then ll else closeProtocolError
    let lr := s.data.drop 2
    if lr.length > 0 then
      if utf8 lr then (status, lr) else (closeProtocolError, badUTF8Data)
    else (status, [])
  else (closeProtocolError, [])

/-- `handlePacket`.  The last fragment of a message is delivered without the
buffered ones, and a binary message of one frame is not delivered. -/
def handlePacket (utf8 : List UInt8 → Bool) (s : BRWebSocketImpl) :
    BRWebSocketImpl × List SocketEvent :=
  if (s.opcode = .pong ∨ s.opcode = .ping) ∧ s.dataWritten > 125 then (s, [])
  else if s.opcode = .close then
    s.close (s.closeStatus utf8).1 (s.closeStatus utf8).2
  else if s.fin = 0 then
    if s.opcode ≠ .stream then
      if s.opcode = .ping ∨ s.opcode = .pong then (s, [])
      else
        ({ s with
            fragType := s.opcode
            fragStart := true
            fragBuffer := s.fragBuffer ++ s.data }, [])
    else if ! s.fragStart then (s, [])
    else ({ s with fragBuffer := s.fragBuffer ++ s.data }, [])
  else
    match s.opcode with
    | .stream =>
        if ! s.fragStart then (s, [])
        else
          ({ s with fragType := .binary, fragStart := false, fragBuffer := [] },
            if s.fragType = .text then
              if utf8 s.data then [.didReceiveText s.data] else []
            else [.didReceiveData s.data])
    | .ping => (s, [sendMessage false .pong s.data])
    | .pong => (s, [])
    | .text =>
        if s.fragStart then (s, [])
        else (s, if utf8 s.data then [.didReceiveText s.data] else [])
    | _ => (s, [])

/-- A frame is complete. -/
def finishPacket (utf8 : List UInt8 → Bool) (s : BRWebSocketImpl) :
    BRWebSocketImpl × List SocketEvent :=
  ({ (s.handlePacket utf8).1 with data := [], dataWritten := 0, state := .headerb1 },
    (s.handlePacket utf8).2)

/-- The header of a frame is complete. -/
def beginPayload (utf8 : List UInt8 → Bool) (s : BRWebSocketImpl) :
    BRWebSocketImpl × List SocketEvent :=
  if s.length ≤ 0 then s.finishPacket utf8
  else
    ({ s with data := List.replicate s.length 0, dataWritten := 0, state := .payload }, [])

/-- The length of a frame is known. -/
def afterLength (utf8 : List UInt8 → Bool) (s : BRWebSocketImpl) :
    BRWebSocketImpl × List SocketEvent :=
  if s.hasMask then
    ({ s with maskarray := List.replicate 4 0, maskarrayWritten := 0, state := .mask }, [])
  else s.beginPayload utf8

/-- The states `lengthshort` and `lengthlong`, with 2 and 8 bytes. -/
def parseLength (utf8 : List UInt8 → Bool) (k : ℕ) (s : BRWebSocketImpl) (byte : UInt8) :
    BRWebSocketImpl × List SocketEvent :=
  let s := { s with lengtharrayWritten := s.lengtharrayWritten + 1 }
  if s.lengtharrayWritten > k then (s, [])
  else
    let s := { s with lengtharray := s.lengtharray.set (s.lengtharrayWritten - 1) byte }
    if s.lengtharrayWritten = k then
      { s with length := networkValue s.lengtharray }.afterLength utf8
    else (s, [])

/-- `parseMessage`. -/
def parseMessage (utf8 : List UInt8 → Bool) (s : BRWebSocketImpl) (byte : UInt8) :
    BRWebSocketImpl × List SocketEvent :=
  match s.state with
  | .headerb1 =>
      match SocketOpcode.ofRawValue (byte &&& 0x0F) with
      | none => ({ s with fin := byte &&& 0x80 }, [])
      | some opc =>
          ({ s with
              fin := byte &&& 0x80
              opcode := opc
              state := .headerb2
              index := 0
              length := 0 }, [])
  | .headerb2 =>
      -- a ping never leaves this state
      if s.opcode = .ping then (s, [])
      else
        let s := { s with hasMask := byte &&& 0x80 = 128 }
        let length := byte &&& 0x7F
        if length ≤ 125 then { s with length := length.toNat }.afterLength utf8
        else if length = 126 then
          ({ s with
              lengtharray := List.replicate 2 0
              lengtharrayWritten := 0
              state := .lengthshort }, [])
        else if length = 127 then
          ({ s with
              lengtharray := List.replicate 8 0
              lengtharrayWritten := 0
              state := .lengthlong }, [])
        else (s, [])
  | .lengthshort => s.parseLength utf8 2 byte
  | .lengthlong => s.parseLength utf8 8 byte
  | .mask =>
      let s := { s with maskarrayWritten := s.maskarrayWritten + 1 }
      -- the source tests the counter of the length here
      if s.lengtharrayWritten > 4 then (s, [])
      else
        let s := { s with maskarray := s.maskarray.set (s.maskarrayWritten - 1) byte }
        if s.maskarrayWritten = 4 then s.beginPayload utf8 else (s, [])
  | .payload =>
      let s := { s with dataWritten := s.dataWritten + 1 }
      if s.dataWritten ≥ maxPayload then (s, [])
      else
        let byte := if s.hasMask then byte ^^^ s.maskarray.getD (s.index % 4) 0 else byte
        let s := { s with data := s.data.set (s.dataWritten - 1) byte }
        if s.index + 1 = s.length then s.finishPacket utf8
        else ({ s with index := s.index + 1 }, [])

/-- The bytes of a socket, one by one. -/
def feed (utf8 : List UInt8 → Bool) :
    BRWebSocketImpl → List UInt8 → BRWebSocketImpl × List SocketEvent
  | s, [] => (s, [])
  | s, b :: bs =>
      ((feed utf8 (s.parseMessage utf8 b).1 bs).1,
        (s.parseMessage utf8 b).2 ++ (feed utf8 (s.parseMessage utf8 b).1 bs).2)

/-- Go on with the next bytes. -/
def feedMore (utf8 : List UInt8 → Bool) (r : BRWebSocketImpl × List SocketEvent)
    (bs : List UInt8) : BRWebSocketImpl × List SocketEvent :=
  ((feed utf8 r.1 bs).1, r.2 ++ (feed utf8 r.1 bs).2)

end BRWebSocketImpl

/-! ## Frames -/

/-- The three encodings of the length of a payload. -/
inductive LengthForm
  | seven
  | sixteen
  | sixtyFour
deriving DecidableEq

def SocketOpcode.IsControl (o : SocketOpcode) : Prop :=
  o = .close ∨ o = .ping ∨ o = .pong

instance (o : SocketOpcode) : Decidable o.IsControl :=
  inferInstanceAs (Decidable (_ ∨ _))

/-- A complete frame of a client with zero reserved bits. -/
structure Frame where
  fin : Bool
  opcode : SocketOpcode
  mask : Option (List UInt8)
  form : LengthForm
  payload : List UInt8
  mask_length : ∀ m ∈ mask, m.length = 4
  short : payload.length < maxPayload
  fits : match form with
    | .seven => payload.length ≤ 125
    | .sixteen => payload.length < 65536
    | .sixtyFour => True
  control : opcode.IsControl → fin = true ∧ payload.length ≤ 125

namespace Frame

/-- The payload from position `i` on, with the mask applied. -/
def maskFrom (mask : List UInt8) : ℕ → List UInt8 → List UInt8
  | _, [] => []
  | i, b :: bs => (b ^^^ mask.getD (i % 4) 0) :: maskFrom mask (i + 1) bs

/-- The length bits of the second byte, and the bytes of an extended length. -/
def lengthBits (f : Frame) : ℕ :=
  match f.form with
  | .seven => f.payload.length
  | .sixteen => 126
  | .sixtyFour => 127

def extendedLength (f : Frame) : List UInt8 :=
  match f.form with
  | .seven => []
  | .sixteen => toNetwork 2 f.payload.length
  | .sixtyFour => toNetwork 8 f.payload.length

/-- The bytes behind the length. -/
def body (f : Frame) : List UInt8 :=
  match f.mask with
  | none => f.payload
  | some m => m ++ maskFrom m 0 f.payload

/-- The bytes of a frame. -/
def encode (f : Frame) : List UInt8 :=
  ((if f.fin then 0x80 else 0) ||| f.opcode.rawValue) ::
    ((if f.mask.isSome then 0x80 else 0) ||| UInt8.ofNat f.lengthBits) ::
      (f.extendedLength ++ f.body)

end Frame

/-! ## What a stream delivers -/

/-- A message to the client. -/
inductive SocketMessage
  | text (text : List UInt8)
  | binary (data : List UInt8)
deriving DecidableEq

/-- The message of a payload of the given kind. -/
def messageOf (o : SocketOpcode) (payload : List UInt8) : SocketMessage :=
  if o = .text then .text payload else .binary payload

/-- What the frames so far leave behind: the kind and the bytes of a message
whose fragments are not complete, and whether the last extended length had 64
bits. -/
structure Monitor where
  fragments : Option (SocketOpcode × List UInt8) := none
  wide : Bool := false

namespace Monitor

/-- The state behind a frame. -/
def next (m : Monitor) (f : Frame) : Monitor where
  fragments :=
    match f.opcode with
    | .text | .binary => if f.fin then none else some (f.opcode, f.payload)
    | .stream => if f.fin then none else m.fragments.map (fun p => (p.1, p.2 ++ f.payload))
    | _ => m.fragments
  wide :=
    match f.form with
    | .seven => m.wide
    | .sixteen => false
    | .sixtyFour => true

/-- The message that a frame completes. -/
def messages (m : Monitor) (f : Frame) : List SocketMessage :=
  match f.opcode with
  | .text | .binary => if f.fin then [messageOf f.opcode f.payload] else []
  | .stream =>
      if f.fin then (m.fragments.map (fun p => messageOf p.1 (p.2 ++ f.payload))).toList
      else []
  | _ => []

/-- Fragments continue a message, and other data frames do not stand between
them. -/
def InOrder (m : Monitor) (f : Frame) : Prop :=
  match f.opcode with
  | .text | .binary => m.fragments = none
  | .stream => m.fragments.isSome = true
  | _ => True

end Monitor

/-- A sequence of frames in the order of the protocol. -/
def StreamInOrder : Monitor → List Frame → Prop
  | _, [] => True
  | m, f :: fs => m.InOrder f ∧ StreamInOrder (m.next f) fs

/-- The messages of a stream. -/
def streamMessages : Monitor → List Frame → List SocketMessage
  | _, [] => []
  | m, f :: fs => m.messages f ++ streamMessages (m.next f) fs

/-- The messages that the client receives. -/
def clientMessage : SocketEvent → Option SocketMessage
  | .didReceiveText text => some (.text text)
  | .didReceiveData data => some (.binary data)
  | .sendq _ _ => none

def isPong : SocketEvent → Bool
  | .sendq .pong _ => true
  | _ => false

/-- The pongs that answer the pings of a stream. -/
def streamPongs (frames : List Frame) : List SocketEvent :=
  (frames.filter (fun f => f.opcode = .ping)).map
    (fun f => sendMessage false .pong f.payload)

/-- The receiver follows the framing: it is back in `headerb1` behind every
frame, the client gets the messages of the stream, and every ping is answered. -/
structure FollowsFraming (utf8 : List UInt8 → Bool) (frames : List Frame) : Prop where
  state : ∀ pre, pre <+: frames →
    (BRWebSocketImpl.feed utf8 {} (pre.flatMap Frame.encode)).1.state = .headerb1
  messages : (BRWebSocketImpl.feed utf8 {} (frames.flatMap Frame.encode)).2.filterMap
    clientMessage = streamMessages {} frames
  pongs : (BRWebSocketImpl.feed utf8 {} (frames.flatMap Frame.encode)).2.filter isPong =
    streamPongs frames

/-- The frames that the receiver handles. -/
structure FrameSafe (utf8 : List UInt8 → Bool) (m : Monitor) (f : Frame) : Prop where
  /-- it is not a ping -/
  ping : f.opcode ≠ .ping
  /-- it has no mask while the last extended length has had 64 bits -/
  mask : f.mask.isSome = true → (m.next f).wide = false
  /-- it is not a binary message of one frame -/
  binary : f.opcode = .binary → f.fin = false
  /-- a text message of one frame is UTF-8 -/
  text : f.opcode = .text → f.fin = true → utf8 f.payload = true
  /-- it completes a message only of empty fragments, and text only as UTF-8 -/
  last : f.opcode = .stream → f.fin = true → ∀ p ∈ m.fragments,
    p.2 = [] ∧ (p.1 = .text → utf8 f.payload = true)

def StreamSafe (utf8 : List UInt8 → Bool) : Monitor → List Frame → Prop
  | _, [] => True
  | m, f :: fs => FrameSafe utf8 m f ∧ StreamSafe utf8 (m.next f) fs


/-! ## Bytes one by one -/

namespace BRWebSocketImpl

section Feed

variable {utf8 : List UInt8 → Bool}

@[simp] theorem feed_nil
    (s : BRWebSocketImpl) :
    feed utf8 s [] = (s, []) := by
  rfl

theorem feed_cons
    (s : BRWebSocketImpl) (b : UInt8) (bs : List UInt8) :
    feed utf8 s (b :: bs) = feedMore utf8 (s.parseMessage utf8 b) bs := by
  rfl

theorem feed_append
    (s : BRWebSocketImpl) (as bs : List UInt8) :
    feed utf8 s (as ++ bs) = feedMore utf8 (feed utf8 s as) bs := by
  induction as generalizing s with
  | nil =>
      simp [feedMore]
  | cons a as ih =>
      rw [List.cons_append, feed_cons, feed_cons, feedMore, ih]
      simp [feedMore]

/-- A byte without an event. -/
theorem feed_silent
    {s s' : BRWebSocketImpl} {b : UInt8}
    (h : s.parseMessage utf8 b = (s', []))
    (bs : List UInt8) :
    feed utf8 s (b :: bs) = feed utf8 s' bs := by
  rw [feed_cons, h, feedMore]
  simp

/-! ### States that no byte leaves -/

/-- The second byte of a ping, or a mask behind a length of 64 bits. -/
def Stuck (s : BRWebSocketImpl) : Prop :=
  s.state = .headerb2 ∧ s.opcode = .ping ∨ s.state = .mask ∧ s.lengtharrayWritten > 4

theorem Stuck.parseMessage
    {s : BRWebSocketImpl}
    (h : s.Stuck)
    (b : UInt8) :
    (s.parseMessage utf8 b).1.Stuck ∧ (s.parseMessage utf8 b).2 = [] := by
  rcases h with ⟨hs, hp⟩ | ⟨hs, hl⟩
  · have hstep : s.parseMessage utf8 b = (s, []) := by
      simp only [BRWebSocketImpl.parseMessage, hs, hp, if_true]
    rw [hstep]
    exact ⟨Or.inl ⟨hs, hp⟩, rfl⟩
  · have hstep : s.parseMessage utf8 b =
        ({ s with maskarrayWritten := s.maskarrayWritten + 1 }, []) := by
      simp only [BRWebSocketImpl.parseMessage, hs, hl, if_true]
    rw [hstep]
    exact ⟨Or.inr ⟨hs, hl⟩, rfl⟩

theorem Stuck.feed
    {s : BRWebSocketImpl}
    (h : s.Stuck)
    (bs : List UInt8) :
    (feed utf8 s bs).1.Stuck ∧ (feed utf8 s bs).2 = [] := by
  induction bs generalizing s with
  | nil =>
      exact ⟨h, rfl⟩
  | cons b bs ih =>
      obtain ⟨hnext, hsilent⟩ := @Stuck.parseMessage utf8 s h b
      obtain ⟨hlast, hrest⟩ := ih hnext
      rw [feed_cons, feedMore]
      exact ⟨hlast, by rw [hsilent, hrest]; rfl⟩

theorem Stuck.state_ne
    {s : BRWebSocketImpl}
    (h : s.Stuck) :
    s.state ≠ .headerb1 := by
  rcases h with ⟨hs, -⟩ | ⟨hs, -⟩ <;> rw [hs] <;> decide

/-! ### Counted bytes -/

/-- Writing the next cell of a buffer that is filled from the front. -/
theorem set_filled
    (pre : List UInt8) (n : ℕ) (b : UInt8) :
    (pre ++ List.replicate (n + 1) 0).set pre.length b =
      (pre ++ [b]) ++ List.replicate n 0 := by
  rw [List.replicate_succ]
  simp

/-- One byte of an extended length that is not the last one. -/
theorem parseLength_more
    {s : BRWebSocketImpl} {k : ℕ} {b : UInt8}
    (h : s.lengtharrayWritten + 1 < k) :
    s.parseLength utf8 k b =
      ({ s with
          lengtharrayWritten := s.lengtharrayWritten + 1
          lengtharray := s.lengtharray.set s.lengtharrayWritten b }, []) := by
  have h₁ : ¬ s.lengtharrayWritten + 1 > k := by omega
  have h₂ : ¬ s.lengtharrayWritten + 1 = k := by omega
  simp [parseLength, h₁, h₂]

theorem parseLength_last
    {s : BRWebSocketImpl} {k : ℕ} {b : UInt8}
    (h : s.lengtharrayWritten + 1 = k) :
    s.parseLength utf8 k b =
      { s with
          lengtharrayWritten := k
          lengtharray := s.lengtharray.set s.lengtharrayWritten b
          length := networkValue (s.lengtharray.set s.lengtharrayWritten b) }.afterLength
        utf8 := by
  subst h
  simp [parseLength]

/-- The bytes of an extended length. -/
theorem feed_length
    {s : BRWebSocketImpl} {k : ℕ} {bs pre rest : List UInt8}
    (hstep : ∀ t : BRWebSocketImpl, t.state = s.state → ∀ b,
      t.parseMessage utf8 b = t.parseLength utf8 k b)
    (harray : s.lengtharray = pre ++ List.replicate bs.length 0)
    (hwritten : s.lengtharrayWritten = pre.length)
    (hk : pre.length + bs.length = k)
    (hbs : bs ≠ []) :
    feed utf8 s (bs ++ rest) =
      feedMore utf8 ({ s with
          lengtharrayWritten := k
          lengtharray := pre ++ bs
          length := networkValue (pre ++ bs) }.afterLength utf8) rest := by
  induction bs generalizing s pre with
  | nil =>
      exact absurd rfl hbs
  | cons b bs ih =>
      rw [List.length_cons] at harray hk
      have hset : s.lengtharray.set s.lengtharrayWritten b =
          (pre ++ [b]) ++ List.replicate bs.length 0 := by
        rw [harray, hwritten, set_filled]
      rw [List.cons_append]
      rcases bs with _ | ⟨c, bs⟩
      · have hlast := @parseLength_last utf8 s k b
          (show s.lengtharrayWritten + 1 = k by rw [hwritten]; simpa using hk)
        rw [feed_cons, hstep s rfl b, hlast, hset]
        simp
      · have hmore := @parseLength_more utf8 s k b
          (show s.lengtharrayWritten + 1 < k by
            rw [hwritten, ← hk, List.length_cons]; omega)
        rw [hset] at hmore
        rw [feed_silent ((hstep s rfl b).trans hmore)]
        have hrest := @ih { s with
            lengtharrayWritten := s.lengtharrayWritten + 1
            lengtharray := (pre ++ [b]) ++ List.replicate (c :: bs).length 0 }
          (pre ++ [b]) hstep rfl (by simp [hwritten])
          (by rw [← hk]; simp; omega) (by simp)
        refine hrest.trans ?_
        simp

/-- The bytes of a mask. -/
theorem feed_mask
    {s : BRWebSocketImpl} {bs pre rest : List UInt8}
    (hs : s.state = .mask)
    (hnarrow : ¬ s.lengtharrayWritten > 4)
    (harray : s.maskarray = pre ++ List.replicate bs.length 0)
    (hwritten : s.maskarrayWritten = pre.length)
    (hk : pre.length + bs.length = 4)
    (hbs : bs ≠ []) :
    feed utf8 s (bs ++ rest) =
      feedMore utf8
        ({ s with maskarrayWritten := 4, maskarray := pre ++ bs }.beginPayload utf8) rest := by
  induction bs generalizing s pre with
  | nil =>
      exact absurd rfl hbs
  | cons b bs ih =>
      rw [List.length_cons] at harray hk
      have hset : s.maskarray.set s.maskarrayWritten b =
          (pre ++ [b]) ++ List.replicate bs.length 0 := by
        rw [harray, hwritten, set_filled]
      rw [List.cons_append]
      rcases bs with _ | ⟨c, bs⟩
      · have hfour : s.maskarrayWritten + 1 = 4 := by
          rw [hwritten]
          simpa using hk
        have hlast : s.parseMessage utf8 b =
            { s with maskarrayWritten := 4, maskarray := pre ++ [b] }.beginPayload utf8 := by
          have hthree : s.maskarray.set 3 b = pre ++ [b] := by
            rw [show 3 = s.maskarrayWritten by omega, hset]
            simp
          simp only [parseMessage, hs, hnarrow, if_false, hfour, if_true]
          rw [hthree]
        rw [feed_cons, hlast]
        simp
      · have hmore : ¬ s.maskarrayWritten + 1 = 4 := by
          rw [hwritten, ← hk, List.length_cons]
          omega
        have hstep : s.parseMessage utf8 b =
            ({ s with
                maskarrayWritten := s.maskarrayWritten + 1
                maskarray := (pre ++ [b]) ++ List.replicate (c :: bs).length 0 }, []) := by
          simp only [parseMessage, hs, hnarrow, if_false, Nat.add_sub_cancel, hset, hmore]
        rw [feed_silent hstep]
        have hrest := @ih { s with
            maskarrayWritten := s.maskarrayWritten + 1
            maskarray := (pre ++ [b]) ++ List.replicate (c :: bs).length 0 }
          (pre ++ [b]) hs hnarrow rfl (by simp [hwritten])
          (by rw [← hk]; simp; omega) (by simp)
        refine hrest.trans ?_
        simp

/-- The bytes that a frame puts on the wire for the payload from position `i` on. -/
def onWire (s : BRWebSocketImpl) (i : ℕ) (bs : List UInt8) : List UInt8 :=
  if s.hasMask then Frame.maskFrom s.maskarray i bs else bs

section Payload

variable {s : BRWebSocketImpl} {b c : UInt8} {pre : List UInt8}

/-- The last byte of a payload. -/
theorem parseMessage_payloadLast
    (hs : s.state = .payload)
    (hb : (if s.hasMask then c ^^^ s.maskarray.getD (pre.length % 4) 0 else c) = b)
    (hdata : s.data = pre ++ [0])
    (hwritten : s.dataWritten = pre.length)
    (hindex : s.index = pre.length)
    (hk : pre.length + 1 = s.length)
    (hshort : s.length < maxPayload) :
    s.parseMessage utf8 c =
      { s with
          dataWritten := s.length
          index := s.length - 1
          data := pre ++ [b] }.finishPacket utf8 := by
  have hroom : ¬ s.dataWritten + 1 ≥ maxPayload := by
    rw [hwritten]
    omega
  have hset : s.data.set s.dataWritten b = pre ++ [b] := by
    rw [hdata, hwritten]
    simp
  have hlen : s.index + 1 = s.length := by
    rw [hindex, hk]
  have hd : s.dataWritten + 1 = s.length := by
    rw [hwritten, hk]
  have hi : s.index = s.length - 1 := by omega
  simp only [parseMessage, hs, hroom, if_false, Nat.add_sub_cancel]
  rw [hindex, hb, hset, ← hindex, if_pos hlen, hd, hi]

/-- A byte of a payload in front of its last one. -/
theorem parseMessage_payloadMore
    {n : ℕ}
    (hs : s.state = .payload)
    (hb : (if s.hasMask then c ^^^ s.maskarray.getD (pre.length % 4) 0 else c) = b)
    (hdata : s.data = pre ++ List.replicate (n + 1) 0)
    (hwritten : s.dataWritten = pre.length)
    (hindex : s.index = pre.length)
    (hk : pre.length + 1 < s.length)
    (hshort : s.length < maxPayload) :
    s.parseMessage utf8 c = ({ s with
      dataWritten := s.dataWritten + 1
      index := s.index + 1
      data := (pre ++ [b]) ++ List.replicate n 0 }, []) := by
  have hroom : ¬ s.dataWritten + 1 ≥ maxPayload := by
    rw [hwritten]
    omega
  have hset : s.data.set s.dataWritten b = (pre ++ [b]) ++ List.replicate n 0 := by
    rw [hdata, hwritten, set_filled]
  have hmore : ¬ s.index + 1 = s.length := by
    rw [hindex]
    omega
  simp only [parseMessage, hs, hroom, if_false, Nat.add_sub_cancel]
  rw [hindex, hb, hset, ← hindex, if_neg hmore]

end Payload

/-- The bytes of a payload. -/
theorem feed_payload
    {s : BRWebSocketImpl} {bs pre rest : List UInt8}
    (hs : s.state = .payload)
    (hdata : s.data = pre ++ List.replicate bs.length 0)
    (hwritten : s.dataWritten = pre.length)
    (hindex : s.index = pre.length)
    (hk : pre.length + bs.length = s.length)
    (hshort : s.length < maxPayload)
    (hbs : bs ≠ []) :
    feed utf8 s (s.onWire pre.length bs ++ rest) =
      feedMore utf8 ({ s with
          dataWritten := s.length
          index := s.length - 1
          data := pre ++ bs }.finishPacket utf8) rest := by
  induction bs generalizing s pre with
  | nil =>
      exact absurd rfl hbs
  | cons b bs ih =>
      rw [List.length_cons] at hdata hk
      -- the mask is taken off again
      have hwire : ∃ c, s.onWire pre.length (b :: bs) = c :: s.onWire (pre.length + 1) bs ∧
          (if s.hasMask then c ^^^ s.maskarray.getD (pre.length % 4) 0 else c) = b := by
        by_cases hm : s.hasMask = true
        · refine ⟨b ^^^ s.maskarray.getD (pre.length % 4) 0, ?_, ?_⟩
          · simp [onWire, hm, Frame.maskFrom]
          · rw [if_pos hm, UInt8.xor_assoc, UInt8.xor_self, UInt8.xor_zero]
        · exact ⟨b, by simp [onWire, hm], by simp [hm]⟩
      obtain ⟨c, hwire, hb⟩ := hwire
      rw [hwire, List.cons_append]
      rcases bs with _ | ⟨d, bs⟩
      · rw [feed_cons, parseMessage_payloadLast hs hb hdata hwritten hindex hk hshort]
        simp [onWire, Frame.maskFrom]
      · rw [List.length_cons] at hk
        rw [feed_silent
          (parseMessage_payloadMore hs hb hdata hwritten hindex (by omega) hshort)]
        have hrest := @ih { s with
            dataWritten := s.dataWritten + 1
            index := s.index + 1
            data := (pre ++ [b]) ++ List.replicate (d :: bs).length 0 }
          (pre ++ [b]) hs rfl (by simp [hwritten]) (by simp [hindex])
          (by rw [List.length_append, List.length_singleton, ← hk]; simp; omega) hshort
          (by simp)
        rw [List.length_append, List.length_singleton] at hrest
        refine hrest.trans ?_
        simp

end Feed

end BRWebSocketImpl

/-! ## One frame -/

theorem networkValue_toNetwork
    {k n : ℕ}
    (hn : n < 256 ^ k) :
    networkValue (toNetwork k n) = n := by
  rw [networkValue, toNetwork, List.reverse_reverse, LittleEndian.value_bytes hn]

@[simp] theorem length_toNetwork
    (k n : ℕ) :
    (toNetwork k n).length = k := by
  rw [toNetwork, List.length_reverse, LittleEndian.length_bytes]

/-- The first byte of a frame gives its opcode and its final bit. -/
theorem first_byte
    (fin : Bool) (o : SocketOpcode) :
    SocketOpcode.ofRawValue (((if fin then 0x80 else 0) ||| o.rawValue) &&& 0x0F) = some o ∧
      ((if fin then 0x80 else 0) ||| o.rawValue) &&& 0x80 = if fin then 0x80 else 0 := by
  cases fin <;> cases o <;> decide

/-- The second byte of a frame gives its mask bit and the length bits. -/
theorem second_byte
    (mask : Bool) {n : ℕ}
    (hn : n < 128) :
    decide (((if mask then 0x80 else 0) ||| UInt8.ofNat n) &&& 0x80 = 128) = mask ∧
      (((if mask then 0x80 else 0) ||| UInt8.ofNat n) &&& 0x7F).toNat = n := by
  have h : ∀ (mask : Bool) (n : Fin 128),
      decide (((if mask then 0x80 else 0) ||| UInt8.ofNat n) &&& 0x80 = 128) = mask ∧
        (((if mask then 0x80 else 0) ||| UInt8.ofNat n) &&& 0x7F).toNat = n := by
    decide
  exact h mask ⟨n, hn⟩

/-- How many bytes of an extended length have been written last, behind the
header of a frame. -/
def Frame.written (f : Frame) (before : ℕ) : ℕ :=
  match f.form with
  | .seven => before
  | .sixteen => 2
  | .sixtyFour => 8

namespace BRWebSocketImpl

variable {utf8 : List UInt8 → Bool}

/-- The receiver between two frames. -/
structure Idle (s : BRWebSocketImpl) : Prop where
  state : s.state = .headerb1
  data : s.data = []
  dataWritten : s.dataWritten = 0

/-- The receiver behind the length of a frame. -/
structure HeaderRead (s : BRWebSocketImpl) (f : Frame) (h : BRWebSocketImpl) : Prop where
  fin : h.fin = if f.fin then 0x80 else 0
  opcode : h.opcode = f.opcode
  hasMask : h.hasMask = f.mask.isSome
  length : h.length = f.payload.length
  index : h.index = 0
  data : h.data = []
  dataWritten : h.dataWritten = 0
  lengtharrayWritten : h.lengtharrayWritten = f.written s.lengtharrayWritten
  fragStart : h.fragStart = s.fragStart
  fragType : h.fragType = s.fragType

/-- The receiver when `handlePacket` is called for a frame. -/
structure Collected (s : BRWebSocketImpl) (f : Frame) (t : BRWebSocketImpl) : Prop where
  fin : t.fin = if f.fin then 0x80 else 0
  opcode : t.opcode = f.opcode
  data : t.data = f.payload
  dataWritten : t.dataWritten = f.payload.length
  lengtharrayWritten : t.lengtharrayWritten = f.written s.lengtharrayWritten
  fragStart : t.fragStart = s.fragStart
  fragType : t.fragType = s.fragType

/-- The first byte of a frame. -/
theorem parse_first
    {s : BRWebSocketImpl}
    (hs : s.state = .headerb1)
    (fin : Bool) (o : SocketOpcode) :
    s.parseMessage utf8 ((if fin then 0x80 else 0) ||| o.rawValue) =
      ({ s with
          fin := if fin then 0x80 else 0
          opcode := o
          state := .headerb2
          index := 0
          length := 0 }, []) := by
  obtain ⟨hraw, hfin⟩ := first_byte fin o
  simp only [parseMessage, hs, hraw, hfin]

/-- The second byte of a frame that is not a ping. -/
theorem parse_second
    {s : BRWebSocketImpl} {n : ℕ}
    (hs : s.state = .headerb2)
    (hping : s.opcode ≠ .ping)
    (mask : Bool)
    (hn : n < 128) :
    s.parseMessage utf8 ((if mask then 0x80 else 0) ||| UInt8.ofNat n) =
      if n ≤ 125 then { s with hasMask := mask, length := n }.afterLength utf8
      else
        ({ s with
            hasMask := mask
            lengtharray := List.replicate (if n = 126 then 2 else 8) 0
            lengtharrayWritten := 0
            state := if n = 126 then .lengthshort else .lengthlong }, []) := by
  obtain ⟨hmask, hlen⟩ := second_byte mask hn
  simp only [parseMessage, hs, hping, if_false, hmask]
  generalize hb : ((if mask then 0x80 else 0) ||| UInt8.ofNat n) &&& 0x7F = b at hlen ⊢
  have hle : b ≤ 125 ↔ n ≤ 125 := by
    rw [UInt8.le_iff_toNat_le, hlen]
    rfl
  have h126 : b = 126 ↔ n = 126 := by
    rw [← UInt8.toNat_inj, hlen]
    rfl
  have h127 : b = 127 ↔ n = 127 := by
    rw [← UInt8.toNat_inj, hlen]
    rfl
  simp only [hle, h126, h127, hlen]
  by_cases h₁ : n ≤ 125
  · simp [h₁]
  · by_cases h₂ : n = 126
    · simp [h₂]
    · have h₃ : n = 127 := by omega
      simp [h₃]

/-- The header of a frame, up to its length. -/
theorem feed_header
    {s : BRWebSocketImpl} {f : Frame}
    (hs : s.Idle)
    (hping : f.opcode ≠ .ping) :
    ∃ h, HeaderRead s f h ∧
      feed utf8 s f.encode = feedMore utf8 (h.afterLength utf8) f.body := by
  have hshort : f.payload.length < 33554432 := f.short
  rw [Frame.encode, feed_silent (parse_first hs.state f.fin f.opcode)]
  have hsecond := fun n => @parse_second utf8 { s with
      fin := if f.fin then 0x80 else 0
      opcode := f.opcode
      state := .headerb2
      index := 0
      length := 0 } n rfl hping f.mask.isSome
  cases hform : f.form with
  | seven =>
      have hfits : f.payload.length ≤ 125 := by
        have := f.fits
        rwa [hform] at this
      have hbits : f.lengthBits = f.payload.length := by
        rw [Frame.lengthBits, hform]
      have hext : f.extendedLength = [] := by
        rw [Frame.extendedLength, hform]
      have hstep := hsecond f.payload.length (by omega)
      rw [if_pos hfits] at hstep
      rw [hbits, hext, List.nil_append, feed_cons, hstep]
      refine ⟨_, ?_, rfl⟩
      exact ⟨rfl, rfl, rfl, rfl, rfl, hs.data, hs.dataWritten,
        by rw [Frame.written, hform], rfl, rfl⟩
  | sixteen =>
      have hfits : f.payload.length < 65536 := by
        have := f.fits
        rwa [hform] at this
      have hbits : f.lengthBits = 126 := by
        rw [Frame.lengthBits, hform]
      have hext : f.extendedLength = toNetwork 2 f.payload.length := by
        rw [Frame.extendedLength, hform]
      have hstep := hsecond 126 (by omega)
      rw [if_neg (show ¬ 126 ≤ 125 by omega)] at hstep
      rw [hbits, hext, feed_silent hstep]
      rw [@feed_length utf8 _ 2 _ [] _ (fun t ht b => by
          simp only [parseMessage, show t.state = .lengthshort from ht])
        (by simp) rfl (by simp) (by simp [← List.length_pos_iff])]
      rw [List.nil_append, networkValue_toNetwork (by omega)]
      refine ⟨_, ?_, rfl⟩
      exact ⟨rfl, rfl, rfl, rfl, rfl, hs.data, hs.dataWritten,
        by rw [Frame.written, hform], rfl, rfl⟩
  | sixtyFour =>
      have hbits : f.lengthBits = 127 := by
        rw [Frame.lengthBits, hform]
      have hext : f.extendedLength = toNetwork 8 f.payload.length := by
        rw [Frame.extendedLength, hform]
      have hstep := hsecond 127 (by omega)
      rw [if_neg (show ¬ 127 ≤ 125 by omega)] at hstep
      rw [hbits, hext, feed_silent hstep]
      rw [@feed_length utf8 _ 8 _ [] _ (fun t ht b => by
          simp only [parseMessage, show t.state = .lengthlong from ht])
        (by simp) rfl (by simp) (by simp [← List.length_pos_iff])]
      rw [List.nil_append, networkValue_toNetwork (by omega)]
      refine ⟨_, ?_, rfl⟩
      exact ⟨rfl, rfl, rfl, rfl, rfl, hs.data, hs.dataWritten,
        by rw [Frame.written, hform], rfl, rfl⟩

/-- The payload of a frame. -/
theorem feed_beginPayload
    {t : BRWebSocketImpl} {payload : List UInt8}
    (hlength : t.length = payload.length)
    (hindex : t.index = 0)
    (hdata : t.data = [])
    (hwritten : t.dataWritten = 0)
    (hshort : payload.length < maxPayload) :
    ∃ st i, feedMore utf8 (t.beginPayload utf8) (t.onWire 0 payload) =
      { t with
          state := st
          index := i
          data := payload
          dataWritten := payload.length }.finishPacket utf8 := by
  rcases payload with _ | ⟨b, bs⟩
  · have hwire : t.onWire 0 [] = [] := by
      simp [onWire, Frame.maskFrom]
    have hzero : t.length ≤ 0 := by
      rw [hlength]
      rfl
    rw [beginPayload, if_pos hzero, hwire, feedMore]
    have hsame : { t with
        state := t.state
        index := t.index
        data := []
        dataWritten := ([] : List UInt8).length } = t := by
      cases t
      simp only [BRWebSocketImpl.mk.injEq, true_and]
      exact ⟨hdata.symm, hwritten.symm, trivial⟩
    refine ⟨t.state, t.index, ?_⟩
    rw [hsame, feed_nil, List.append_nil]
  · have hpos : ¬ t.length ≤ 0 := by
      rw [hlength]
      simp
    rw [beginPayload, if_neg hpos, feedMore]
    have hpay := @feed_payload utf8 { t with
        data := List.replicate t.length 0
        dataWritten := 0
        state := .payload } (b :: bs) [] [] rfl
      (by simp [hlength]) rfl hindex (by simp [hlength]) (by rw [hlength]; exact hshort)
      (by simp)
    rw [List.append_nil] at hpay
    refine ⟨.payload, t.length - 1, ?_⟩
    change (let r := feed utf8 _ _; (r.1, [] ++ r.2)) = _
    rw [show t.onWire 0 (b :: bs) = onWire { t with
        data := List.replicate t.length 0
        dataWritten := 0
        state := .payload } ([] : List UInt8).length (b :: bs) from rfl, hpay]
    simp [feedMore, hlength]

/-- Everything behind the length of a frame. -/
theorem feed_body
    {s h : BRWebSocketImpl} {f : Frame}
    (hh : HeaderRead s f h)
    (hnarrow : f.mask.isSome = true → ¬ f.written s.lengtharrayWritten > 4) :
    ∃ t, Collected s f t ∧
      feedMore utf8 (h.afterLength utf8) f.body = t.finishPacket utf8 := by
  cases hmask : f.mask with
  | none =>
      have hno : h.hasMask = false := by
        rw [hh.hasMask, hmask]
        rfl
      have hbody : f.body = h.onWire 0 f.payload := by
        rw [Frame.body, hmask, onWire, hno]
        rfl
      obtain ⟨st, i, heq⟩ := @feed_beginPayload utf8 h f.payload hh.length hh.index hh.data
        hh.dataWritten f.short
      rw [afterLength, hno, hbody]
      refine ⟨_, ?_, heq⟩
      exact ⟨hh.fin, hh.opcode, rfl, rfl, hh.lengtharrayWritten, hh.fragStart, hh.fragType⟩
  | some m =>
      have hyes : h.hasMask = true := by
        rw [hh.hasMask, hmask]
        rfl
      have hlen : m.length = 4 := f.mask_length m (by rw [hmask]; rfl)
      have hnot : ¬ h.lengtharrayWritten > 4 := by
        rw [hh.lengtharrayWritten]
        exact hnarrow (by rw [hmask]; rfl)
      have hbody : f.body = m ++ Frame.maskFrom m 0 f.payload := by
        rw [Frame.body, hmask]
      rw [afterLength, if_pos hyes, hbody, feedMore]
      have hm := @feed_mask utf8 { h with
          maskarray := List.replicate 4 0
          maskarrayWritten := 0
          state := .mask } m [] (Frame.maskFrom m 0 f.payload) rfl hnot (by simp [hlen]) rfl
        (by simp [hlen])
        (by rw [← List.length_pos_iff]; omega)
      obtain ⟨st, i, heq⟩ := @feed_beginPayload utf8 { h with
          maskarray := m
          maskarrayWritten := 4
          state := .mask } f.payload hh.length hh.index hh.data hh.dataWritten
        f.short
      have hwire : onWire { h with
          maskarray := m
          maskarrayWritten := 4
          state := .mask } 0 f.payload = Frame.maskFrom m 0 f.payload := by
        simp [onWire, hyes]
      rw [hwire] at heq
      rw [hm, List.nil_append, List.nil_append, heq]
      refine ⟨_, ?_, rfl⟩
      exact ⟨hh.fin, hh.opcode, rfl, rfl, hh.lengtharrayWritten, hh.fragStart, hh.fragType⟩

/-- A mask behind a length of 64 bits is not read to its end. -/
theorem stuck_body
    {s h : BRWebSocketImpl} {f : Frame}
    (hh : HeaderRead s f h)
    (hmask : f.mask.isSome = true)
    (hwide : f.written s.lengtharrayWritten > 4) :
    (feedMore utf8 (h.afterLength utf8) f.body).1.Stuck ∧
      (feedMore utf8 (h.afterLength utf8) f.body).2 = [] := by
  have hyes : h.hasMask = true := by
    rw [hh.hasMask, hmask]
  rw [afterLength, if_pos hyes, feedMore]
  have hstuck : Stuck { h with
      maskarray := List.replicate 4 0
      maskarrayWritten := 0
      state := .mask } := by
    refine Or.inr ⟨rfl, ?_⟩
    rw [← hh.lengtharrayWritten] at hwide
    exact hwide
  exact hstuck.feed f.body

/-- The second byte of a ping is not read. -/
theorem stuck_ping
    {s : BRWebSocketImpl} {f : Frame}
    (hs : s.Idle)
    (hping : f.opcode = .ping) :
    (feed utf8 s f.encode).1.Stuck ∧ (feed utf8 s f.encode).2 = [] := by
  rw [Frame.encode, feed_silent (parse_first hs.state f.fin f.opcode)]
  exact Stuck.feed (Or.inl ⟨rfl, hping⟩) _

end BRWebSocketImpl

/-! ## A stream of frames -/

/-- The message that the receiver delivers for a frame. -/
def Monitor.delivered (utf8 : List UInt8 → Bool) (m : Monitor) (f : Frame) :
    List SocketMessage :=
  match f.opcode with
  | .text => if f.fin && utf8 f.payload then [.text f.payload] else []
  | .stream =>
      match m.fragments with
      | none => []
      | some p =>
          if f.fin && (p.1 ≠ .text || utf8 f.payload) then [messageOf p.1 f.payload] else []
  | _ => []

/-- The receiver between two frames of a stream. -/
structure BRWebSocketImpl.Tracks (s : BRWebSocketImpl) (m : Monitor) : Prop
    extends s.Idle where
  wide : m.wide = decide (s.lengtharrayWritten > 4)
  fragStart : s.fragStart = m.fragments.isSome
  fragType : ∀ p ∈ m.fragments, s.fragType = p.1

section Stream

open BRWebSocketImpl

variable {utf8 : List UInt8 → Bool} {m : Monitor} {s : BRWebSocketImpl} {f : Frame}

/-- The counter of the length behind a frame. -/
theorem wide_next
    (hwide : m.wide = decide (s.lengtharrayWritten > 4)) :
    (m.next f).wide = decide (f.written s.lengtharrayWritten > 4) := by
  rw [Monitor.next, Frame.written]
  cases f.form
  · exact hwide
  · rfl
  · rfl

/-- `handlePacket` keeps the counter of the length. -/
theorem handlePacket_lengtharrayWritten
    (t : BRWebSocketImpl) :
    (t.handlePacket utf8).1.lengtharrayWritten = t.lengtharrayWritten := by
  rw [handlePacket]
  cases t.opcode <;> dsimp only <;> split_ifs <;> rfl

/-- What `handlePacket` has to do with a complete frame: the fragment state follows,
the client gets what is delivered, and no pong is sent. -/
structure FrameHandled (utf8 : List UInt8 → Bool) (m : Monitor) (f : Frame) (t : BRWebSocketImpl) :
    Prop where
  fragStart : (t.handlePacket utf8).1.fragStart = (m.next f).fragments.isSome
  fragType : ∀ p ∈ (m.next f).fragments, (t.handlePacket utf8).1.fragType = p.1
  delivered : (t.handlePacket utf8).2.filterMap clientMessage = m.delivered utf8 f
  pongs : (t.handlePacket utf8).2.filter isPong = []

section FrameHandled

variable {t : BRWebSocketImpl}

theorem BRWebSocketImpl.Collected.fin_eq_zero_iff
    (ht : Collected s f t) :
    t.fin = 0 ↔ f.fin = false := by
  rw [ht.fin]
  cases f.fin <;> decide

theorem handlePacket_close
    (hstart : t.fragStart = m.fragments.isSome)
    (htype : ∀ p ∈ m.fragments, t.fragType = p.1)
    (ht : Collected s f t)
    (hop : f.opcode = .close) :
    FrameHandled utf8 m f t := by
  have htop : t.opcode = .close := ht.opcode.trans hop
  have hstep : t.handlePacket utf8 =
      t.close (t.closeStatus utf8).1 (t.closeStatus utf8).2 := by
    simp [handlePacket, htop]
  have hnext : (m.next f).fragments = m.fragments := by
    rw [Monitor.next, hop]
  have hdelivered : m.delivered utf8 f = [] := by
    rw [Monitor.delivered, hop]
  constructor
  · rw [hstep, hnext]
    exact hstart
  · rw [hstep, hnext]
    exact htype
  · rw [hstep, hdelivered, close]
    cases t.closed <;> rfl
  · rw [hstep, close]
    cases t.closed <;> rfl

theorem handlePacket_pong
    (hstart : t.fragStart = m.fragments.isSome)
    (htype : ∀ p ∈ m.fragments, t.fragType = p.1)
    (ht : Collected s f t)
    (hop : f.opcode = .pong) :
    FrameHandled utf8 m f t := by
  have htop : t.opcode = .pong := ht.opcode.trans hop
  obtain ⟨hf, hlen⟩ := f.control (by rw [hop]; exact Or.inr (Or.inr rfl))
  have hshort : ¬ t.dataWritten > 125 := by
    rw [ht.dataWritten]
    omega
  have hfin0 : ¬ t.fin = 0 := by
    rw [ht.fin_eq_zero_iff, hf]
    decide
  have hstep : t.handlePacket utf8 = (t, []) := by
    simp [handlePacket, htop, hshort, hfin0]
  have hnext : (m.next f).fragments = m.fragments := by
    rw [Monitor.next, hop]
  have hdelivered : m.delivered utf8 f = [] := by
    rw [Monitor.delivered, hop]
  constructor
  · rw [hstep, hnext]
    exact hstart
  · rw [hstep, hnext]
    exact htype
  · rw [hstep, hdelivered]
    rfl
  · rw [hstep]
    rfl

/-- The first fragment of a message is kept, and nothing is delivered. -/
theorem handlePacket_firstFragment
    (ht : Collected s f t)
    (hkind : f.opcode = .text ∨ f.opcode = .binary)
    (hfin : f.fin = false) :
    FrameHandled utf8 m f t := by
  have hfin0 : t.fin = 0 := ht.fin_eq_zero_iff.mpr hfin
  have htop : t.opcode = f.opcode := ht.opcode
  have hstep : t.handlePacket utf8 =
      ({ t with
          fragType := f.opcode
          fragStart := true
          fragBuffer := t.fragBuffer ++ t.data }, []) := by
    rcases hkind with hop | hop
    · simp [handlePacket, htop, hop, hfin0]
    · simp [handlePacket, htop, hop, hfin0]
  have hnext : (m.next f).fragments = some (f.opcode, f.payload) := by
    rcases hkind with hop | hop
    · simp [Monitor.next, hop, hfin]
    · simp [Monitor.next, hop, hfin]
  have hdelivered : m.delivered utf8 f = [] := by
    rcases hkind with hop | hop
    · simp [Monitor.delivered, hop, hfin]
    · rw [Monitor.delivered, hop]
  constructor
  · rw [hstep, hnext]
    rfl
  · rw [hstep, hnext]
    simp
  · rw [hstep, hdelivered]
    rfl
  · rw [hstep]
    rfl

/-- A message in one frame is delivered if it is valid text. -/
theorem handlePacket_whole
    (hclosed : t.fragStart = false)
    (ht : Collected s f t)
    (hkind : f.opcode = .text ∨ f.opcode = .binary)
    (hfin : f.fin = true) :
    FrameHandled utf8 m f t := by
  have hfin0 : ¬ t.fin = 0 := by
    rw [ht.fin_eq_zero_iff, hfin]
    decide
  have htop : t.opcode = f.opcode := ht.opcode
  have hstep : t.handlePacket utf8 =
      (t, if f.opcode = .text ∧ utf8 f.payload = true then [.didReceiveText f.payload]
        else []) := by
    rcases hkind with hop | hop
    · simp [handlePacket, htop, hop, hfin0, hclosed, ht.data]
    · simp [handlePacket, htop, hop, hfin0]
  have hnext : (m.next f).fragments = none := by
    rcases hkind with hop | hop
    · simp [Monitor.next, hop, hfin]
    · simp [Monitor.next, hop, hfin]
  constructor
  · rw [hstep, hnext]
    exact hclosed
  · rw [hnext]
    simp
  · rw [hstep, Monitor.delivered]
    rcases hkind with hop | hop
    · simp only [hop, hfin, Bool.true_and, true_and]
      split_ifs <;> rfl
    · simp [hop]
  · rw [hstep]
    dsimp only
    split_ifs <;> rfl

/-- A frame that continues a message ends it, or is kept with it. -/
theorem handlePacket_stream
    {p : SocketOpcode × List UInt8}
    (hp : m.fragments = some p)
    (hopen : t.fragStart = true)
    (hkind : t.fragType = p.1)
    (ht : Collected s f t)
    (hop : f.opcode = .stream) :
    FrameHandled utf8 m f t := by
  have htop : t.opcode = .stream := ht.opcode.trans hop
  cases hf : f.fin with
  | false =>
      have hfin0 : t.fin = 0 := ht.fin_eq_zero_iff.mpr hf
      have hstep : t.handlePacket utf8 =
          ({ t with fragBuffer := t.fragBuffer ++ t.data }, []) := by
        simp [handlePacket, htop, hfin0, hopen]
      have hnext : (m.next f).fragments = some (p.1, p.2 ++ f.payload) := by
        simp [Monitor.next, hop, hf, hp]
      constructor
      · rw [hstep, hnext]
        exact hopen
      · rw [hstep, hnext]
        simp [hkind]
      · rw [hstep, Monitor.delivered, hop]
        simp [hf, hp]
      · rw [hstep]
        rfl
  | true =>
      have hfin0 : ¬ t.fin = 0 := by
        rw [ht.fin_eq_zero_iff, hf]
        decide
      have hstep : t.handlePacket utf8 =
          ({ t with fragType := .binary, fragStart := false, fragBuffer := [] },
            if p.1 = .text then
              if utf8 f.payload then [.didReceiveText f.payload] else []
            else [.didReceiveData f.payload]) := by
        simp [handlePacket, htop, hfin0, hopen, ht.data, hkind]
      have hnext : (m.next f).fragments = none := by
        simp [Monitor.next, hop, hf]
      constructor
      · rw [hstep, hnext]
        rfl
      · rw [hnext]
        simp
      · rw [hstep, Monitor.delivered, hop]
        by_cases htext : p.1 = .text
        · by_cases hutf : utf8 f.payload = true <;>
            simp [hf, hp, htext, hutf, messageOf, clientMessage]
        · simp [hf, hp, htext, messageOf, clientMessage]
      · rw [hstep]
        dsimp only
        split_ifs <;> rfl

end FrameHandled

/-- A complete frame that is not a ping is handled. -/
theorem handlePacket_spec
    {t : BRWebSocketImpl}
    (hs : s.Tracks m)
    (horder : m.InOrder f)
    (hping : f.opcode ≠ .ping)
    (ht : Collected s f t) :
    FrameHandled utf8 m f t := by
  have hstart : t.fragStart = m.fragments.isSome := ht.fragStart.trans hs.fragStart
  have htype : ∀ p ∈ m.fragments, t.fragType = p.1 :=
    fun p hp => ht.fragType.trans (hs.fragType p hp)
  have hmessage : f.opcode = .text ∨ f.opcode = .binary → FrameHandled utf8 m f t := by
    intro hkind
    have hclosed : t.fragStart = false := by
      rw [Monitor.InOrder] at horder
      rcases hkind with hop | hop
      · rw [hop] at horder
        rw [hstart, horder]
        rfl
      · rw [hop] at horder
        rw [hstart, horder]
        rfl
    cases hf : f.fin with
    | false => exact handlePacket_firstFragment ht hkind hf
    | true => exact handlePacket_whole hclosed ht hkind hf
  cases hop : f.opcode with
  | ping => exact absurd hop hping
  | close => exact handlePacket_close hstart htype ht hop
  | pong => exact handlePacket_pong hstart htype ht hop
  | text => exact hmessage (.inl hop)
  | binary => exact hmessage (.inr hop)
  | stream =>
      rw [Monitor.InOrder, hop] at horder
      obtain ⟨p, hp⟩ := Option.isSome_iff_exists.mp horder
      exact handlePacket_stream hp (hstart.trans horder) (htype p hp) ht hop

/-- A frame that the receiver reads to its end. -/
theorem feed_frame
    (hs : s.Tracks m)
    (horder : m.InOrder f)
    (hping : f.opcode ≠ .ping)
    (hmask : f.mask.isSome = true → (m.next f).wide = false) :
    (feed utf8 s f.encode).1.Tracks (m.next f) ∧
      (feed utf8 s f.encode).2.filterMap clientMessage = m.delivered utf8 f ∧
      (feed utf8 s f.encode).2.filter isPong = [] := by
  obtain ⟨h, hh, hheader⟩ := @feed_header utf8 s f hs.toIdle hping
  have hnarrow : f.mask.isSome = true → ¬ f.written s.lengtharrayWritten > 4 := by
    intro hm
    have := hmask hm
    rw [wide_next hs.wide] at this
    simpa using this
  obtain ⟨t, ht, hbody⟩ := @feed_body utf8 s h f hh hnarrow
  obtain ⟨hstart, htype, hmessages, hpongs⟩ :=
    @handlePacket_spec utf8 m s f t hs horder hping ht
  rw [hheader, hbody, finishPacket]
  refine ⟨⟨⟨rfl, rfl, rfl⟩, ?_, hstart, htype⟩, hmessages, hpongs⟩
  rw [wide_next hs.wide, ← ht.lengtharrayWritten]
  exact congrArg (fun n => decide (n > 4)) (handlePacket_lengtharrayWritten t).symm

/-- A frame that the receiver does not read to its end. -/
theorem stuck_frame
    (hs : s.Tracks m)
    (h : f.opcode = .ping ∨ f.mask.isSome = true ∧ (m.next f).wide = true) :
    (feed utf8 s f.encode).1.Stuck ∧ (feed utf8 s f.encode).2 = [] := by
  by_cases hping : f.opcode = .ping
  · exact stuck_ping hs.toIdle hping
  · obtain ⟨hmask, hwide⟩ := h.resolve_left hping
    obtain ⟨k, hh, hheader⟩ := @feed_header utf8 s f hs.toIdle hping
    rw [wide_next hs.wide] at hwide
    rw [hheader]
    exact stuck_body hh hmask (by simpa using hwide)

theorem delivered_length_le
    (m : Monitor) (f : Frame) :
    (m.delivered utf8 f).length ≤ (m.messages f).length := by
  rw [Monitor.delivered, Monitor.messages]
  cases f.opcode with
  | text =>
      cases f.fin <;> simp
      split_ifs <;> simp
  | binary =>
      simp
  | stream =>
      cases m.fragments with
      | none =>
          simp
      | some p =>
          cases f.fin <;> simp
          split_ifs <;> simp
  | close =>
      simp
  | ping =>
      simp
  | pong =>
      simp

/-- What is delivered is the message of the frame. -/
theorem delivered_eq_iff
    (m : Monitor) (f : Frame) :
    m.delivered utf8 f = m.messages f ↔
      (f.opcode = .binary → f.fin = false) ∧
      (f.opcode = .text → f.fin = true → utf8 f.payload = true) ∧
      (f.opcode = .stream → f.fin = true → ∀ p ∈ m.fragments,
        p.2 = [] ∧ (p.1 = .text → utf8 f.payload = true)) := by
  rw [Monitor.delivered, Monitor.messages]
  cases f.opcode with
  | text =>
      cases f.fin <;> cases utf8 f.payload <;> simp [messageOf]
  | binary =>
      cases f.fin <;> simp
  | stream =>
      cases m.fragments with
      | none =>
          simp
      | some p =>
          obtain ⟨o, b⟩ := p
          cases f.fin with
          | false =>
              simp
          | true =>
              by_cases htext : o = .text
              · cases hutf : utf8 f.payload <;> simp [messageOf, htext]
              · simp [messageOf, htext]
  | close =>
      simp
  | ping =>
      simp
  | pong =>
      simp

/-- The client never gets more messages than the stream has. -/
theorem clientMessages_length_le
    {frames : List Frame}
    (hs : s.Tracks m)
    (horder : StreamInOrder m frames) :
    ((feed utf8 s (frames.flatMap Frame.encode)).2.filterMap clientMessage).length ≤
      (streamMessages m frames).length := by
  induction frames generalizing s m with
  | nil =>
      simp
  | cons f fs ih =>
      rw [List.flatMap_cons, feed_append, feedMore, streamMessages, List.filterMap_append,
        List.length_append, List.length_append]
      by_cases hstuck : f.opcode = .ping ∨ f.mask.isSome = true ∧ (m.next f).wide = true
      · obtain ⟨hst, hev⟩ := @stuck_frame utf8 m s f hs hstuck
        rw [hev, (hst.feed _).2]
        simp
      · rw [not_or, not_and, Bool.not_eq_true] at hstuck
        obtain ⟨htracks, hmessages, -⟩ :=
          @feed_frame utf8 m s f hs horder.1 hstuck.1 hstuck.2
        have hrest := ih htracks horder.2
        have hone := @delivered_length_le utf8 m f
        rw [hmessages]
        omega

/-- The receiver follows the framing of a stream exactly if it handles every one
of its frames. -/
theorem follows_iff_streamSafe
    {frames : List Frame}
    (hs : s.Tracks m)
    (horder : StreamInOrder m frames) :
    ((∀ pre, pre <+: frames → (feed utf8 s (pre.flatMap Frame.encode)).1.state = .headerb1) ∧
      (feed utf8 s (frames.flatMap Frame.encode)).2.filterMap clientMessage =
        streamMessages m frames ∧
      (feed utf8 s (frames.flatMap Frame.encode)).2.filter isPong = streamPongs frames) ↔
      StreamSafe utf8 m frames := by
  induction frames generalizing s m with
  | nil =>
      simp [StreamSafe, streamMessages, streamPongs, hs.state]
  | cons f fs ih =>
      by_cases hstuck : f.opcode = .ping ∨ f.mask.isSome = true ∧ (m.next f).wide = true
      · -- the first frame is not read to its end
        obtain ⟨hst, -⟩ := @stuck_frame utf8 m s f hs hstuck
        refine iff_of_false ?_ ?_
        · rintro ⟨hstate, -⟩
          have := hstate [f] ⟨fs, rfl⟩
          rw [List.flatMap_cons, List.flatMap_nil, List.append_nil] at this
          exact hst.state_ne this
        · rintro ⟨hsafe, -⟩
          rcases hstuck with hping | ⟨hmask, hwide⟩
          · exact hsafe.ping hping
          · rw [hsafe.mask hmask] at hwide
            cases hwide
      · rw [not_or, not_and, Bool.not_eq_true] at hstuck
        obtain ⟨hping, hmask⟩ := hstuck
        obtain ⟨htracks, hmessages, hpongs⟩ :=
          @feed_frame utf8 m s f hs horder.1 hping hmask
        have hle := @clientMessages_length_le utf8 _ _ _ htracks horder.2
        have hrun : feed utf8 s ((f :: fs).flatMap Frame.encode) =
            feedMore utf8 (feed utf8 s f.encode) (fs.flatMap Frame.encode) := by
          rw [List.flatMap_cons, feed_append]
        have hnoPong : streamPongs (f :: fs) = streamPongs fs := by
          rw [streamPongs, List.filter_cons_of_neg (by simpa using hping), streamPongs]
        have hstates : (∀ pre, pre <+: f :: fs →
            (feed utf8 s (pre.flatMap Frame.encode)).1.state = .headerb1) ↔
            ∀ pre, pre <+: fs → (feed utf8 (feed utf8 s f.encode).1
              (pre.flatMap Frame.encode)).1.state = .headerb1 := by
          constructor
          · intro h pre hpre
            have := h (f :: pre) ((List.prefix_cons_inj f).mpr hpre)
            rwa [List.flatMap_cons, feed_append] at this
          · intro h pre hpre
            rcases pre with _ | ⟨g, pre⟩
            · exact hs.state
            · obtain ⟨rfl, hrest⟩ := List.cons_prefix_cons.mp hpre
              rw [List.flatMap_cons, feed_append]
              exact h pre hrest
        -- both lists of messages split in the same place
        have hsplit : m.delivered utf8 f ++ (feed utf8 (feed utf8 s f.encode).1
              (fs.flatMap Frame.encode)).2.filterMap clientMessage =
            m.messages f ++ streamMessages (m.next f) fs ↔
            m.delivered utf8 f = m.messages f ∧
              (feed utf8 (feed utf8 s f.encode).1
                (fs.flatMap Frame.encode)).2.filterMap clientMessage =
                streamMessages (m.next f) fs := by
          constructor
          · intro h
            have hlen := congrArg List.length h
            rw [List.length_append, List.length_append] at hlen
            have hone := @delivered_length_le utf8 m f
            exact List.append_inj h (by omega)
          · rintro ⟨h₁, h₂⟩
            rw [h₁, h₂]
        rw [hstates, hrun, feedMore, List.filterMap_append, List.filter_append, hmessages,
          hpongs, List.nil_append, streamMessages, hsplit, hnoPong, StreamSafe,
          ← ih htracks horder.2, delivered_eq_iff]
        constructor
        · rintro ⟨hst, ⟨⟨hb, ht, hl⟩, hm⟩, hp⟩
          exact ⟨⟨hping, hmask, hb, ht, hl⟩, hst, hm, hp⟩
        · rintro ⟨hsafe, hst, hm, hp⟩
          exact ⟨hst, ⟨⟨hsafe.binary, hsafe.text, hsafe.last⟩, hm⟩, hp⟩

/--
**The receiver against the framing.**  For every sequence of frames in the order
of the protocol, the receiver is back in `headerb1` behind every frame, delivers
the messages and answers the pings, if and only if no frame is a ping, none has a
mask while the last extended length has had 64 bits, no binary message comes in
one frame, every text that completes a message is UTF-8, and the fragments in
front of a last one are empty.
-/
theorem followsFraming_iff
    {frames : List Frame}
    (horder : StreamInOrder {} frames) :
    FollowsFraming utf8 frames ↔ StreamSafe utf8 {} frames := by
  have hstart : BRWebSocketImpl.Tracks {} {} :=
    ⟨⟨rfl, rfl, rfl⟩, rfl, rfl, fun p hp => by cases hp⟩
  rw [← follows_iff_streamSafe hstart horder]
  exact ⟨fun h => ⟨h.state, h.messages, h.pongs⟩, fun h => ⟨h.1, h.2.1, h.2.2⟩⟩

end Stream

/-! ## Samples -/

/-- Single bytes, as far as UTF-8 has them. -/
def sampleUTF8 (bytes : List UInt8) : Bool :=
  bytes.all (fun b => b < 0x80)

/-- A masked text message "Hello". -/
def helloFrame : Frame where
  fin := true
  opcode := .text
  mask := some [0x37, 0xfa, 0x21, 0x3d]
  form := .seven
  payload := [0x48, 0x65, 0x6c, 0x6c, 0x6f]
  mask_length := by simp
  short := by decide
  fits := by decide
  control := by decide

/-- A masked ping. -/
def pingFrame : Frame where
  fin := true
  opcode := .ping
  mask := some [0x37, 0xfa, 0x21, 0x3d]
  form := .seven
  payload := []
  mask_length := by simp
  short := by decide
  fits := by decide
  control := by decide

theorem followsFraming_hello :
    FollowsFraming sampleUTF8 [helloFrame, helloFrame] := by
  have horder : StreamInOrder {} [helloFrame, helloFrame] := ⟨rfl, rfl, trivial⟩
  have hsafe : ∀ m : Monitor, m.wide = false → FrameSafe sampleUTF8 m helloFrame := by
    intro m hm
    exact ⟨by decide, fun _ => hm, by decide, by decide, fun h => by cases h⟩
  exact (followsFraming_iff horder).mpr ⟨hsafe _ rfl, hsafe _ rfl, trivial⟩

/-- A ping makes the receiver deaf: the message behind it is lost. -/
theorem pingFrame_not_followed :
    StreamInOrder {} [pingFrame, helloFrame] ∧
      (BRWebSocketImpl.feed sampleUTF8 {} pingFrame.encode).1.state = .headerb2 ∧
      (BRWebSocketImpl.feed sampleUTF8 {}
        ([pingFrame, helloFrame].flatMap Frame.encode)).2 = [] ∧
      ¬ FollowsFraming sampleUTF8 [pingFrame, helloFrame] := by
  refine ⟨⟨trivial, rfl, trivial⟩, by decide, by decide, ?_⟩
  intro h
  exact absurd (h.state [pingFrame] ⟨[helloFrame], rfl⟩) (by decide)

end BreadwalletCore
