import BreadwalletCore.PaymentProtocol.Payment

/-!
# What the serializers write

Each serializer appends the fields of its message, and behind them the unknown
ones.  The first pass of a serializer, without a buffer, finds the length of what
the second one writes.
-/

namespace BreadwalletCore

open ProtoBuf ByteWriter

namespace ProtoBuf

theorem appends_setInt
    (v key : ℕ) :
    Appends (fun w => setInt w v key) (WireField.encode ⟨key, .varint v⟩) :=
  (appends_copyEach (Varint.encode (8 * key))).comp (appends_copyEach (Varint.encode v))

theorem appends_setBytes
    (data : List UInt8) (key : ℕ) {n : ℕ}
    (hn : n ≤ data.length) :
    Appends (fun w => setBytes w (some data) n key)
      (WireField.encode ⟨key, .data (data.take n)⟩) := by
  have hlen : (data.take n).length = n := List.length_take_of_le hn
  have hwrite : Appends (fun w => setBytes w (some data) n key)
      (Varint.encode (8 * key + 2) ++ (Varint.encode n ++ data.take n)) :=
    (appends_copyEach _).comp ((appends_copyEach _).comp (appends_copy _))
  have hencode : WireField.encode ⟨key, .data (data.take n)⟩ =
      Varint.encode (8 * key + 2) ++ (Varint.encode n ++ data.take n) := by
    rw [WireField.encode, WireField.key, WireValue.type, WireValue.encode, hlen]
  rw [hencode]
  exact hwrite

theorem appends_setBytes_all
    (data : List UInt8) (key : ℕ) :
    Appends (fun w => setBytes w (some data) data.length key)
      (WireField.encode ⟨key, .data data⟩) := by
  have h := appends_setBytes data key le_rfl
  rwa [List.take_of_length_le le_rfl] at h

theorem take_cString
    (str : List UInt8) :
    str.take (cString str).length = cString str :=
  (List.prefix_iff_eq_take.mp (List.takeWhile_prefix _)).symm

theorem appends_setString
    (str : List UInt8) (key : ℕ) :
    Appends (fun w => setString w (some str) key)
      (WireField.encode ⟨key, .data (cString str)⟩) := by
  have hle : (cString str).length ≤ str.length := (List.takeWhile_prefix _).length_le
  have h := appends_setBytes str key hle
  rwa [take_cString] at h

section Messages

variable {f : ByteWriter UInt8 → ByteWriter UInt8} {l : List UInt8}

/-- Without a buffer a serializer counts. -/
theorem written_none
    (hf : Appends f l) :
    (written f none).2 = l.length := by
  simp [written, hf.off]

/-- With room for all of it a serializer writes its message. -/
theorem written_some
    {buf : List UInt8}
    (hf : Appends f l)
    (hle : l.length ≤ buf.length) :
    written f (some buf) = (l ++ buf.drop l.length, l.length) := by
  have hbuf : (f { buf := buf, off := 0 }).buf = l ++ buf.drop l.length := by
    have h := hf.fits { buf := buf, off := 0 } (by simpa using hle)
    rwa [List.take_zero, List.nil_append, Nat.zero_add] at h
  have hoff : (f { buf := buf, off := 0 }).off = l.length := by
    rw [hf.off, Nat.zero_add]
  have hroom : (f { buf := buf, off := 0 }).off ≤ (f { buf := buf, off := 0 }).buf.length := by
    rw [hoff, hbuf, List.length_append]
    omega
  have hcount : (written f (some buf)).2 = l.length := by
    simp only [written, Option.getD_some]
    rw [if_pos (Or.inr hroom), hoff]
  exact Prod.ext hbuf hcount

theorem length_newBuf
    (junk : ℕ → UInt8) (n : ℕ) :
    (newBuf junk n).length = n := by
  rw [newBuf, List.length_map, List.length_range]

theorem appends_setMessage
    (junk : ℕ → UInt8) (outLen key : ℕ)
    (hf : Appends f l) :
    Appends (fun w => setMessage junk f outLen w key) (WireField.encode ⟨key, .data l⟩) := by
  have hroom : l.length ≤ (newBuf junk (max outLen l.length)).length := by
    rw [length_newBuf]
    exact le_max_right _ _
  have hset : ∀ w, setMessage junk f outLen w key =
      setBytes w (some (l ++ (newBuf junk (max outLen l.length)).drop l.length)) l.length key := by
    intro w
    rw [setMessage, written_none hf, written_some hf hroom]
  have hwrite := appends_setBytes (l ++ (newBuf junk (max outLen l.length)).drop l.length) key
    (n := l.length) (by rw [List.length_append]; omega)
  rw [List.take_left' rfl] at hwrite
  simp only [hset]
  exact hwrite

theorem appends_setMessages
    {β : Type} (junk : ℕ → UInt8) (key : ℕ)
    {write : β → ByteWriter UInt8 → ByteWriter UInt8} {message : β → List UInt8} {xs : List β}
    (hwrite : ∀ x ∈ xs, Appends (write x) (message x))
    (outLen : ℕ) :
    Appends (setMessages junk key outLen (xs.map write))
      (WireField.encodeAll (xs.map (fun x => ⟨key, .data (message x)⟩))) := by
  induction xs generalizing outLen with
  | nil =>
      exact appends_id
  | cons x xs ih =>
      rw [List.forall_mem_cons] at hwrite
      exact (appends_setMessage junk outLen key hwrite.1).comp (ih hwrite.2 _)

/-- The bytes that a caller gets. -/
theorem serialized_eq
    (junk : ℕ → UInt8)
    (hf : Appends f l) :
    serialized junk f = l := by
  rw [serialized, written_none hf, written_some hf (by rw [length_newBuf])]
  exact List.take_left' rfl

end Messages

theorem appends_setUnknown
    (ctx : ProtoBufContext) :
    Appends (fun w => setUnknown w ctx) (ctx.unknown.getD []) := by
  cases hunknown : ctx.unknown with
  | none =>
      simp only [setUnknown, hunknown]
      exact appends_id
  | some unknown =>
      simp only [setUnknown, hunknown]
      exact appends_copy unknown

end ProtoBuf

end BreadwalletCore
