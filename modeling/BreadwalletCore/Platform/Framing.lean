import BreadwalletCore.Platform.WebSocket

/-!
# Frames of `sendMessage`

What `parseMessage` reads from the payloads that `sendMessage` queues.

* `packetOf` says for a byte whether `parseMessage` calls `handlePacket`, and in
  which state of the receiver.
* `packets` are the calls for the bytes of a socket, in order.
-/

namespace BreadwalletCore

namespace BRWebSocketImpl

/-! ## The calls of `handlePacket` -/

/-- The call in `beginPayload`. -/
def packetOfBegin (s : BRWebSocketImpl) : Option BRWebSocketImpl :=
  if s.length ≤ 0 then some s else none

/-- The call in `afterLength`. -/
def packetOfLength (s : BRWebSocketImpl) : Option BRWebSocketImpl :=
  if s.hasMask then none else s.packetOfBegin

/-- The call in `parseLength`. -/
def packetOfLengthByte (k : ℕ) (s : BRWebSocketImpl) (byte : UInt8) : Option BRWebSocketImpl :=
  let s := { s with lengtharrayWritten := s.lengtharrayWritten + 1 }
  if s.lengtharrayWritten > k then none
  else
    let s := { s with lengtharray := s.lengtharray.set (s.lengtharrayWritten - 1) byte }
    if s.lengtharrayWritten = k then
      { s with length := networkValue s.lengtharray }.packetOfLength
    else none

/-- The receiver when `parseMessage` calls `handlePacket`. -/
def packetOf (s : BRWebSocketImpl) (byte : UInt8) : Option BRWebSocketImpl :=
  match s.state with
  | .headerb1 => none
  | .headerb2 =>
      if s.opcode = .ping then none
      else
        let s := { s with hasMask := byte &&& 0x80 = 128 }
        let length := byte &&& 0x7F
        if length ≤ 125 then { s with length := length.toNat }.packetOfLength else none
  | .lengthshort => s.packetOfLengthByte 2 byte
  | .lengthlong => s.packetOfLengthByte 8 byte
  | .mask =>
      let s := { s with maskarrayWritten := s.maskarrayWritten + 1 }
      if s.lengtharrayWritten > 4 then none
      else
        let s := { s with maskarray := s.maskarray.set (s.maskarrayWritten - 1) byte }
        if s.maskarrayWritten = 4 then s.packetOfBegin else none
  | .payload =>
      let s := { s with dataWritten := s.dataWritten + 1 }
      if s.dataWritten ≥ maxPayload then none
      else
        let byte := if s.hasMask then byte ^^^ s.maskarray.getD (s.index % 4) 0 else byte
        let s := { s with data := s.data.set (s.dataWritten - 1) byte }
        if s.index + 1 = s.length then some s else none

/-- The calls for the bytes of a socket. -/
def packets (utf8 : List UInt8 → Bool) : BRWebSocketImpl → List UInt8 → List BRWebSocketImpl
  | _, [] => []
  | s, b :: bs => (s.packetOf b).toList ++ packets utf8 (s.parseMessage utf8 b).1 bs

/-- The states of a receiver. -/
inductive Reachable (utf8 : List UInt8 → Bool) : BRWebSocketImpl → Prop
  | start : Reachable utf8 {}
  | parseMessage {s : BRWebSocketImpl} (h : Reachable utf8 s) (byte : UInt8) :
      Reachable utf8 (s.parseMessage utf8 byte).1
  | close {s : BRWebSocketImpl} (h : Reachable utf8 s) (status : ℕ) (reason : List UInt8) :
      Reachable utf8 (s.close status reason).1

end BRWebSocketImpl

/-! ## Messages for the other side -/

/-- A frame for `sendMessage`. -/
structure OutgoingFrame where
  opcode : SocketOpcode
  data : List UInt8
  sendable : opcode = .text ∨ opcode = .binary ∨ opcode = .close ∨ opcode = .pong
  short : data.length < maxPayload

/-- The payload that is put into `sendq`. -/
def SocketEvent.payload : SocketEvent → List UInt8
  | .sendq _ payload => payload
  | _ => []

/-- The bytes of a frame. -/
def OutgoingFrame.bytes (f : OutgoingFrame) : List UInt8 :=
  (sendMessage false f.opcode f.data).payload

/-- The frame is handed over to `handlePacket`. -/
structure OutgoingFrame.HandedOver (f : OutgoingFrame) (t : BRWebSocketImpl) : Prop where
  opcode : t.opcode = f.opcode
  fin : t.fin = 0x80
  data : t.data = f.data
  dataWritten : t.dataWritten = f.data.length

namespace BRWebSocketImpl

/-! ## The calls and the receiver -/

variable {utf8 : List UInt8 → Bool}

/-- The result of a byte for which `handlePacket` is called in the state `p`. -/
def Handles (utf8 : List UInt8 → Bool) (p : Option BRWebSocketImpl)
    (r : BRWebSocketImpl × List SocketEvent) : Prop :=
  p.elim (r.2 = []) (fun t => r = t.finishPacket utf8)

theorem handles_begin
    (s : BRWebSocketImpl) :
    Handles utf8 s.packetOfBegin (s.beginPayload utf8) := by
  rw [packetOfBegin, beginPayload]
  split_ifs <;> rfl

theorem handles_length
    (s : BRWebSocketImpl) :
    Handles utf8 s.packetOfLength (s.afterLength utf8) := by
  rw [packetOfLength, afterLength]
  split_ifs
  · rfl
  · exact handles_begin s

theorem handles_lengthByte
    (k : ℕ) (s : BRWebSocketImpl) (byte : UInt8) :
    Handles utf8 (s.packetOfLengthByte k byte) (s.parseLength utf8 k byte) := by
  rw [packetOfLengthByte, parseLength]
  dsimp only
  split_ifs
  · rfl
  · exact handles_length _
  · rfl

/-- `packetOf` is the call that `parseMessage` makes. -/
theorem parseMessage_handles
    (s : BRWebSocketImpl) (byte : UInt8) :
    Handles utf8 (s.packetOf byte) (s.parseMessage utf8 byte) := by
  cases hs : s.state with
  | headerb1 =>
      simp only [packetOf, parseMessage, hs]
      cases SocketOpcode.ofRawValue (byte &&& 0x0F) <;> rfl
  | headerb2 =>
      simp only [packetOf, parseMessage, hs]
      split_ifs
      · rfl
      · exact handles_length _
      · rfl
      · rfl
      · rfl
  | lengthshort =>
      simp only [packetOf, parseMessage, hs]
      exact handles_lengthByte 2 s byte
  | lengthlong =>
      simp only [packetOf, parseMessage, hs]
      exact handles_lengthByte 8 s byte
  | mask =>
      simp only [packetOf, parseMessage, hs]
      split_ifs
      · rfl
      · exact handles_begin _
      · rfl
  | payload =>
      simp only [packetOf, parseMessage, hs]
      split_ifs <;> rfl

/-- Outside of a payload there are no data. -/
def Settled (s : BRWebSocketImpl) : Prop :=
  s.state = .payload ∨ s.data = [] ∧ s.dataWritten = 0

theorem settled_beginPayload
    (s : BRWebSocketImpl) :
    (s.beginPayload utf8).1.Settled := by
  rw [BRWebSocketImpl.beginPayload]
  split_ifs
  · exact Or.inr ⟨rfl, rfl⟩
  · exact Or.inl rfl

theorem Settled.afterLength
    {s : BRWebSocketImpl}
    (h : s.data = [] ∧ s.dataWritten = 0) :
    (s.afterLength utf8).1.Settled := by
  rw [BRWebSocketImpl.afterLength]
  split_ifs
  · exact Or.inr h
  · exact settled_beginPayload s

theorem Settled.parseLength
    {s : BRWebSocketImpl}
    (h : s.data = [] ∧ s.dataWritten = 0)
    (k : ℕ) (byte : UInt8) :
    (s.parseLength utf8 k byte).1.Settled := by
  rw [BRWebSocketImpl.parseLength]
  dsimp only
  split_ifs
  · exact Or.inr h
  · exact Settled.afterLength h
  · exact Or.inr h

theorem Settled.parseMessage
    {s : BRWebSocketImpl}
    (h : s.Settled)
    (byte : UInt8) :
    (s.parseMessage utf8 byte).1.Settled := by
  cases hs : s.state with
  | payload =>
      simp only [BRWebSocketImpl.parseMessage, hs]
      split_ifs <;> first | exact Or.inl rfl | exact Or.inr ⟨rfl, rfl⟩
  | headerb1 =>
      have hdata := h.resolve_left (by rw [hs]; decide)
      simp only [BRWebSocketImpl.parseMessage, hs]
      cases SocketOpcode.ofRawValue (byte &&& 0x0F) <;> exact Or.inr hdata
  | headerb2 =>
      have hdata := h.resolve_left (by rw [hs]; decide)
      simp only [BRWebSocketImpl.parseMessage, hs]
      split_ifs
      · exact Or.inr hdata
      · exact Settled.afterLength hdata
      · exact Or.inr hdata
      · exact Or.inr hdata
      · exact Or.inr hdata
  | lengthshort =>
      have hdata := h.resolve_left (by rw [hs]; decide)
      simp only [BRWebSocketImpl.parseMessage, hs]
      exact Settled.parseLength hdata 2 byte
  | lengthlong =>
      have hdata := h.resolve_left (by rw [hs]; decide)
      simp only [BRWebSocketImpl.parseMessage, hs]
      exact Settled.parseLength hdata 8 byte
  | mask =>
      have hdata := h.resolve_left (by rw [hs]; decide)
      simp only [BRWebSocketImpl.parseMessage, hs]
      split_ifs
      · exact Or.inr hdata
      · exact settled_beginPayload _
      · exact Or.inr hdata

theorem Reachable.settled
    {s : BRWebSocketImpl}
    (h : Reachable utf8 s) :
    s.Settled := by
  induction h with
  | start =>
      exact Or.inr ⟨rfl, rfl⟩
  | parseMessage _ byte ih =>
      exact ih.parseMessage byte
  | close _ status reason ih =>
      exact ih

/-! ## The parts of a frame -/

theorem packets_cons
    (s : BRWebSocketImpl) (b : UInt8) (bs : List UInt8) :
    packets utf8 s (b :: bs) =
      (s.packetOf b).toList ++ packets utf8 (s.parseMessage utf8 b).1 bs := by
  rfl

theorem packets_append
    (s : BRWebSocketImpl) (as bs : List UInt8) :
    packets utf8 s (as ++ bs) = packets utf8 s as ++ packets utf8 (feed utf8 s as).1 bs := by
  induction as generalizing s with
  | nil =>
      rfl
  | cons a as ih =>
      rw [List.cons_append, packets_cons, packets_cons, ih, List.append_assoc, feed_cons]
      rfl

/-- A byte without a call. -/
theorem packets_silent
    {s s' : BRWebSocketImpl} {b : UInt8}
    (hstep : s.parseMessage utf8 b = (s', []))
    (hpacket : s.packetOf b = none)
    (bs : List UInt8) :
    packets utf8 s (b :: bs) = packets utf8 s' bs := by
  rw [packets_cons, hstep, hpacket]
  rfl

section Payload

variable {s : BRWebSocketImpl} {b : UInt8} {pre : List UInt8}

/-- The last byte of a payload is the call. -/
theorem packetOf_last
    (hs : s.state = .payload)
    (hmask : s.hasMask = false)
    (hdata : s.data = pre ++ [0])
    (hwritten : s.dataWritten = pre.length)
    (hindex : s.index = pre.length)
    (hk : pre.length + 1 = s.length)
    (hshort : s.length < maxPayload) :
    s.packetOf b = some { s with
      dataWritten := s.length
      index := s.length - 1
      data := pre ++ [b] } := by
  have hroom : ¬ s.dataWritten + 1 ≥ maxPayload := by
    rw [hwritten]
    omega
  have hset : s.data.set s.dataWritten b = pre ++ [b] := by
    rw [hdata, hwritten]
    simp
  have hlen : s.index + 1 = s.length := by
    rw [hindex, hk]
  have hd : s.dataWritten + 1 = s.length := by
    rw [hwritten, hk]
  have hi : s.index = s.length - 1 := by omega
  simp only [packetOf, hs, hroom, if_false, Nat.add_sub_cancel, hmask, Bool.false_eq_true]
  rw [hset, if_pos hlen, hd, hi]

end Payload

/-- The bytes of a payload. -/
theorem packets_payload
    {s : BRWebSocketImpl} {bs pre : List UInt8}
    (hs : s.state = .payload)
    (hmask : s.hasMask = false)
    (hdata : s.data = pre ++ List.replicate bs.length 0)
    (hwritten : s.dataWritten = pre.length)
    (hindex : s.index = pre.length)
    (hk : pre.length + bs.length = s.length)
    (hshort : s.length < maxPayload)
    (hbs : bs ≠ []) :
    packets utf8 s bs =
      [{ s with
          dataWritten := s.length
          index := s.length - 1
          data := pre ++ bs }] := by
  induction bs generalizing s pre with
  | nil =>
      exact absurd rfl hbs
  | cons b bs ih =>
      rw [List.length_cons] at hdata hk
      rcases bs with _ | ⟨c, bs⟩
      · rw [packets_cons, packetOf_last hs hmask hdata hwritten hindex hk hshort]
        rfl
      · rw [List.length_cons] at hk
        have hstep := @parseMessage_payloadMore utf8 s b b pre _ hs
          (if_neg (by rw [hmask]; exact Bool.false_ne_true)) hdata hwritten hindex (by omega) hshort
        have hroom : ¬ s.dataWritten + 1 ≥ maxPayload := by
          rw [hwritten]
          omega
        have hpacket : s.packetOf b = none := by
          simp only [packetOf, hs, hroom, if_false, show ¬ s.index + 1 = s.length by omega]
        rw [packets_silent hstep hpacket]
        have hrest := @ih { s with
            dataWritten := s.dataWritten + 1
            index := s.index + 1
            data := (pre ++ [b]) ++ List.replicate (c :: bs).length 0 }
          (pre ++ [b]) hs hmask rfl (by simp [hwritten]) (by simp [hindex])
          (by rw [List.length_append, List.length_singleton, ← hk]; simp; omega) hshort
          (by simp)
        refine hrest.trans ?_
        simp

/-- The receiver when the length of a frame without a mask is known. -/
structure Announced (f : OutgoingFrame) (h : BRWebSocketImpl) : Prop where
  opcode : h.opcode = f.opcode
  fin : h.fin = 0x80
  hasMask : h.hasMask = false
  length : h.length = f.data.length
  index : h.index = 0
  data : h.data = []
  dataWritten : h.dataWritten = 0

theorem onWire_of_noMask
    {s : BRWebSocketImpl} {i : ℕ} {bs : List UInt8}
    (hmask : s.hasMask = false) :
    s.onWire i bs = bs := by
  rw [onWire, hmask]
  exact if_neg Bool.false_ne_true

/-- The last byte of a header and the payload. -/
theorem packets_body
    {s h : BRWebSocketImpl} {f : OutgoingFrame} {b : UInt8}
    (hstep : s.parseMessage utf8 b = h.afterLength utf8)
    (hpacket : s.packetOf b = h.packetOfLength)
    (hh : Announced f h) :
    ∃ t, f.HandedOver t ∧ packets utf8 s (b :: f.data) = [t] ∧
      (feed utf8 s (b :: f.data)).1 = (t.finishPacket utf8).1 := by
  rw [packets_cons, feed_cons, hstep, hpacket, packetOfLength, afterLength, hh.hasMask]
  simp only [Bool.false_eq_true, if_false]
  rw [packetOfBegin, beginPayload]
  by_cases hdata : f.data = []
  · -- the header is the whole frame
    have hzero : h.length ≤ 0 := by
      rw [hh.length, hdata]
      rfl
    rw [if_pos hzero, if_pos hzero, hdata]
    exact ⟨h, ⟨hh.opcode, hh.fin, by rw [hh.data, hdata], by rw [hh.dataWritten, hdata]; rfl⟩,
      rfl, rfl⟩
  · have hpos : ¬ h.length ≤ 0 := by
      rw [hh.length, Nat.le_zero, List.length_eq_zero_iff]
      exact hdata
    rw [if_neg hpos, if_neg hpos]
    have hpackets := @packets_payload utf8 { h with
        data := List.replicate h.length 0
        dataWritten := 0
        state := .payload } f.data [] rfl hh.hasMask (by simp [hh.length]) rfl hh.index
      (by simp [hh.length]) (by rw [hh.length]; exact f.short) hdata
    have hfeed := @feed_payload utf8 { h with
        data := List.replicate h.length 0
        dataWritten := 0
        state := .payload } f.data [] [] rfl (by simp [hh.length]) rfl hh.index
      (by simp [hh.length]) (by rw [hh.length]; exact f.short) hdata
    rw [List.append_nil, onWire_of_noMask] at hfeed
    on_goal 2 => exact hh.hasMask
    refine ⟨{ h with
        state := .payload
        dataWritten := h.length
        index := h.length - 1
        data := f.data }, ⟨hh.opcode, hh.fin, rfl, hh.length⟩, hpackets, ?_⟩
    rw [feedMore, hfeed]
    rfl

/-- The bytes of an extended length in front of the last one. -/
theorem packets_lengthInit
    {s : BRWebSocketImpl} {k m : ℕ} {bs pre : List UInt8}
    (hstep : ∀ t : BRWebSocketImpl, t.state = s.state → ∀ b,
      t.parseMessage utf8 b = t.parseLength utf8 k b)
    (hpacket : ∀ t : BRWebSocketImpl, t.state = s.state → ∀ b,
      t.packetOf b = t.packetOfLengthByte k b)
    (harray : s.lengtharray = pre ++ List.replicate (bs.length + m) 0)
    (hwritten : s.lengtharrayWritten = pre.length)
    (hk : pre.length + bs.length < k) :
    feed utf8 s bs =
        ({ s with
            lengtharrayWritten := pre.length + bs.length
            lengtharray := (pre ++ bs) ++ List.replicate m 0 }, []) ∧
      packets utf8 s bs = [] := by
  induction bs generalizing s pre with
  | nil =>
      refine ⟨?_, rfl⟩
      cases s
      simp_all
  | cons b bs ih =>
      rw [List.length_cons] at hk
      have hset : s.lengtharray.set s.lengtharrayWritten b =
          (pre ++ [b]) ++ List.replicate (bs.length + m) 0 := by
        rw [harray, hwritten, List.length_cons, Nat.add_right_comm, set_filled]
      have hmore := @parseLength_more utf8 s k b (by rw [hwritten]; omega)
      rw [hset] at hmore
      have hsilent : s.packetOf b = none := by
        rw [hpacket s rfl b, packetOfLengthByte]
        dsimp only
        rw [if_neg (by rw [hwritten]; omega), if_neg (by rw [hwritten]; omega)]
      rw [feed_silent ((hstep s rfl b).trans hmore),
        packets_silent ((hstep s rfl b).trans hmore) hsilent]
      have hrest := @ih { s with
          lengtharrayWritten := s.lengtharrayWritten + 1
          lengtharray := (pre ++ [b]) ++ List.replicate (bs.length + m) 0 }
        (pre ++ [b]) hstep hpacket rfl (by simp [hwritten]) (by simp; omega)
      refine ⟨hrest.1.trans ?_, hrest.2⟩
      simp [Nat.add_assoc, Nat.add_comm 1]

/-- An extended length and the payload. -/
theorem packets_extended
    {s : BRWebSocketImpl} {k : ℕ} {f : OutgoingFrame}
    (hstep : ∀ t : BRWebSocketImpl, t.state = s.state → ∀ b,
      t.parseMessage utf8 b = t.parseLength utf8 k b)
    (hpacket : ∀ t : BRWebSocketImpl, t.state = s.state → ∀ b,
      t.packetOf b = t.packetOfLengthByte k b)
    (harray : s.lengtharray = List.replicate k 0)
    (hwritten : s.lengtharrayWritten = 0)
    (hk : 0 < k)
    (hfits : f.data.length < 256 ^ k)
    (hh : Announced f { s with length := f.data.length }) :
    ∃ t, f.HandedOver t ∧ packets utf8 s (toNetwork k f.data.length ++ f.data) = [t] ∧
      (feed utf8 s (toNetwork k f.data.length ++ f.data)).1 = (t.finishPacket utf8).1 := by
  have hlen := length_toNetwork k f.data.length
  obtain ⟨init, last, hsplit⟩ := (List.eq_nil_or_concat (toNetwork k f.data.length)).resolve_left
    (by rw [← List.length_eq_zero_iff]; omega)
  rw [List.concat_eq_append] at hsplit
  have hinit : init.length + 1 = k := by
    rw [← hlen, hsplit, List.length_append, List.length_singleton]
  obtain ⟨hfeed, hpackets⟩ := @packets_lengthInit utf8 s k 1 init [] hstep hpacket
    (by rw [harray, hinit]; rfl) hwritten (by simp; omega)
  rw [List.nil_append, List.length_nil, Nat.zero_add] at hfeed
  -- the last byte of the length
  have hset : (init ++ List.replicate 1 0).set init.length last =
      toNetwork k f.data.length := by
    rw [set_filled, hsplit, List.replicate_zero, List.append_nil]
  have hvalue := networkValue_toNetwork hfits
  have hlast : parseMessage utf8 { s with
      lengtharrayWritten := init.length
      lengtharray := init ++ List.replicate 1 0 } last =
      afterLength utf8 { s with
        lengtharrayWritten := k
        lengtharray := toNetwork k f.data.length
        length := f.data.length } := by
    rw [hstep _ (by rfl), parseLength_last hinit]
    dsimp only
    rw [hset, hvalue]
  have hlastPacket : packetOf { s with
      lengtharrayWritten := init.length
      lengtharray := init ++ List.replicate 1 0 } last =
      packetOfLength { s with
        lengtharrayWritten := k
        lengtharray := toNetwork k f.data.length
        length := f.data.length } := by
    rw [hpacket _ (by rfl), packetOfLengthByte]
    dsimp only
    rw [if_neg (by omega), if_pos hinit, Nat.add_sub_cancel, hset, hvalue, hinit]
  obtain ⟨t, ht, hcall, hstate⟩ := packets_body hlast hlastPacket
    ⟨hh.opcode, hh.fin, hh.hasMask, rfl, hh.index, hh.data, hh.dataWritten⟩
  refine ⟨t, ht, ?_, ?_⟩
  · rw [hsplit, List.append_assoc, packets_append, hpackets, hfeed]
    exact hcall
  · rw [hsplit, List.append_assoc, feed_append, hfeed]
    exact hstate

/-- The second byte of a frame without a mask. -/
theorem packetOf_second
    {s : BRWebSocketImpl} {n : ℕ}
    (hs : s.state = .headerb2)
    (hping : s.opcode ≠ .ping)
    (hn : n < 128) :
    s.packetOf (UInt8.ofNat n) =
      if n ≤ 125 then { s with hasMask := false, length := n }.packetOfLength else none := by
  obtain ⟨hmask, hlen⟩ := second_byte false hn
  simp only [Bool.false_eq_true, if_false, UInt8.zero_or] at hmask hlen
  have hle : UInt8.ofNat n &&& 0x7F ≤ 125 ↔ n ≤ 125 := by
    rw [UInt8.le_iff_toNat_le, hlen]
    rfl
  simp only [packetOf, hs, hping, if_false, hmask, hle, hlen]

/-- A frame of `sendMessage`. -/
theorem packets_frame
    {s : BRWebSocketImpl}
    (hs : s.Idle)
    (f : OutgoingFrame) :
    ∃ t, f.HandedOver t ∧ packets utf8 s f.bytes = [t] ∧
      (feed utf8 s f.bytes).1 = (t.finishPacket utf8).1 := by
  have hping : f.opcode ≠ .ping := by
    rcases f.sendable with h | h | h | h <;> rw [h] <;> decide
  have hshort : f.data.length < 33554432 := f.short
  have hfirst := @parse_first utf8 s hs.state true f.opcode
  simp only [if_true] at hfirst
  have hnone : s.packetOf (0x80 ||| f.opcode.rawValue) = none := by
    simp only [packetOf, hs.state]
  have hsecond := fun n => @parse_second utf8 { s with
      fin := 0x80
      opcode := f.opcode
      state := .headerb2
      index := 0
      length := 0 } n rfl hping false
  simp only [Bool.false_eq_true, if_false, UInt8.zero_or] at hsecond
  have hsecondPacket := fun n => @packetOf_second { s with
      fin := 0x80
      opcode := f.opcode
      state := .headerb2
      index := 0
      length := 0 } n rfl hping
  rw [OutgoingFrame.bytes, sendMessage]
  simp only [SocketEvent.payload, Bool.false_eq_true, if_false]
  rw [feed_silent hfirst, packets_silent hfirst hnone]
  by_cases h₁ : f.data.length ≤ 125
  · rw [if_pos h₁]
    have hstep := hsecond f.data.length (by omega)
    have hpacket := hsecondPacket f.data.length (by omega)
    rw [if_pos h₁] at hstep hpacket
    exact packets_body hstep hpacket ⟨rfl, rfl, rfl, rfl, rfl, hs.data, hs.dataWritten⟩
  · rw [if_neg h₁]
    by_cases h₂ : f.data.length ≤ 65535
    · rw [if_pos h₂]
      have hstep := hsecond 126 (by omega)
      have hpacket := hsecondPacket 126 (by omega)
      rw [if_neg (show ¬ 126 ≤ 125 by omega)] at hstep hpacket
      rw [List.cons_append]
      rw [show (126 : UInt8) = UInt8.ofNat 126 from rfl, feed_silent hstep,
        packets_silent hstep hpacket]
      exact packets_extended
        (fun t ht b => by simp only [parseMessage, show t.state = .lengthshort from ht])
        (fun t ht b => by simp only [packetOf, show t.state = .lengthshort from ht])
        rfl rfl (by omega) (by omega)
        ⟨rfl, rfl, rfl, rfl, rfl, hs.data, hs.dataWritten⟩
    · rw [if_neg h₂]
      have hstep := hsecond 127 (by omega)
      have hpacket := hsecondPacket 127 (by omega)
      rw [if_neg (show ¬ 127 ≤ 125 by omega)] at hstep hpacket
      rw [List.cons_append]
      rw [show (127 : UInt8) = UInt8.ofNat 127 from rfl, feed_silent hstep,
        packets_silent hstep hpacket]
      exact packets_extended
        (fun t ht b => by simp only [parseMessage, show t.state = .lengthlong from ht])
        (fun t ht b => by simp only [packetOf, show t.state = .lengthlong from ht])
        rfl rfl (by omega) (by omega)
        ⟨rfl, rfl, rfl, rfl, rfl, hs.data, hs.dataWritten⟩

/-- A receiver that has handled a frame waits for the next one. -/
theorem idle_finishPacket
    (t : BRWebSocketImpl) :
    (t.finishPacket utf8).1.Idle :=
  ⟨rfl, rfl, rfl⟩

theorem packets_frames
    {s : BRWebSocketImpl}
    (hs : s.Idle)
    (frames : List OutgoingFrame) :
    List.Forall₂ OutgoingFrame.HandedOver frames
        (packets utf8 s (frames.flatMap OutgoingFrame.bytes)) ∧
      (feed utf8 s (frames.flatMap OutgoingFrame.bytes)).1.Idle := by
  induction frames generalizing s with
  | nil =>
      exact ⟨List.Forall₂.nil, hs⟩
  | cons f fs ih =>
      obtain ⟨t, ht, hcall, hstate⟩ := @packets_frame utf8 s hs f
      rw [List.flatMap_cons, packets_append, hcall, feed_append, feedMore, hstate]
      obtain ⟨hcalls, hidle⟩ := ih (@idle_finishPacket utf8 t)
      exact ⟨List.Forall₂.cons ht hcalls, hidle⟩

/-- Frames of `sendMessage` are handed over to `handlePacket` one by one, and the
receiver is back in `headerb1` behind them. -/
theorem packets_sendMessage
    {s : BRWebSocketImpl}
    (hr : Reachable utf8 s)
    (hs : s.state = .headerb1)
    (frames : List OutgoingFrame) :
    List.Forall₂ OutgoingFrame.HandedOver frames
        (packets utf8 s (frames.flatMap OutgoingFrame.bytes)) ∧
      (feed utf8 s (frames.flatMap OutgoingFrame.bytes)).1.state = .headerb1 := by
  obtain ⟨hdata, hwritten⟩ := hr.settled.resolve_left (by rw [hs]; decide)
  obtain ⟨hcalls, hidle⟩ := packets_frames ⟨hs, hdata, hwritten⟩ frames
  exact ⟨hcalls, hidle.state⟩

/-- A text and an empty pong on a new connection. -/
theorem packets_sendMessage_sample :
    List.Forall₂ OutgoingFrame.HandedOver
        [⟨.text, [0x68, 0x69], by decide, by decide⟩, ⟨.pong, [], by decide, by decide⟩]
        (packets (fun _ => true) {} ([0x81, 0x02, 0x68, 0x69] ++ [0x8A, 0x00])) ∧
      (feed (fun _ => true) {} ([0x81, 0x02, 0x68, 0x69] ++ [0x8A, 0x00])).1.state =
        .headerb1 :=
  packets_sendMessage .start rfl
    [⟨.text, [0x68, 0x69], by decide, by decide⟩, ⟨.pong, [], by decide, by decide⟩]

end BRWebSocketImpl

end BreadwalletCore
