import BreadwalletCore.Data.ByteWriter
import BreadwalletCore.Data.LittleEndian
import BreadwalletCore.Data.Segment
import BreadwalletCore.Data.Varint
import BreadwalletCore.Transaction.Parse

/-!
# Protocol buffers

The reading and writing of protocol buffer fields that the messages of the
payment protocol share.  A message keeps the fields it does not know in a buffer
of its own, sorted by key.

`none` is a `NULL` pointer.  A pointer into a buffer is an offset.  `junk` is the
content of memory that was allocated and not written.
-/

namespace BreadwalletCore

open Segment (slice)

/-- Why parsing does not return: a loop that never ends, a failed assertion, or a
transaction that is read outside its buffer. -/
inductive ProtoBufFault where
  | outOfFuel
  | assertion
  | invalidRead
deriving DecidableEq, Repr

/-- `ProtoBufContext`: the fields that have their default, and the unknown ones. -/
structure ProtoBufContext where
  defaults : List Bool
  unknown : Option (List UInt8)
deriving DecidableEq, Repr

namespace ProtoBuf

/-! ### Reading -/

/-- The loop of `_ProtoBufVarInt`, for the `fuel` bytes that are left. -/
def varIntLoop (bytes : List UInt8) : ℕ → ℕ → ℕ → ℕ → ℕ × ℕ
  | 0, off, _, _ => (0, off)
  | fuel + 1, off, i, varInt =>
      let b := (bytes.getD off 0).toNat
      let sum := wrap (varInt + b % 128 * 2 ^ (7 * i))
      if 128 ≤ b then varIntLoop bytes fuel (off + 1) (i + 1) sum else (sum, off + 1)

/-- `_ProtoBufVarInt`: the number, which is 0 if the buffer ends in it, and the
offset behind it. -/
def varInt (buf : Option (List UInt8)) (bufLen off : ℕ) : ℕ × ℕ :=
  match buf with
  | none => (0, off)
  | some bytes => varIntLoop bytes (bufLen - off) off 0 0

/-- `_ProtoBufFixed` -/
def fixed (buf : Option (List UInt8)) (bufLen off size : ℕ) : ℕ × ℕ :=
  (match buf with
    | none => 0
    | some bytes =>
        if wrap (off + size) ≤ bufLen ∧ size ≤ 8 then LittleEndian.value (slice bytes off size)
        else 0,
    wrap (off + size))

/-- A field as it is read: its key, its number or its data, and the offset
behind it. -/
structure Field where
  key : ℕ
  i : ℕ
  data : Option ℕ
  dataLen : ℕ
  off : ℕ
deriving DecidableEq, Repr

/-- `_ProtoBufField`, with `_ProtoBufLenDelim`.  For a field without data the
length stays that of the buffer. -/
def field (buf : Option (List UInt8)) (bufLen off : ℕ) : Field :=
  let key := varInt buf bufLen off
  match key.1 % 8 with
  | 0 =>
      let v := varInt buf bufLen key.2
      { key := key.1, i := v.1, data := none, dataLen := bufLen, off := v.2 }
  | 1 =>
      let v := fixed buf bufLen key.2 8
      { key := key.1, i := v.1, data := none, dataLen := bufLen, off := v.2 }
  | 2 =>
      let len := varInt buf bufLen key.2
      { key := key.1
        i := 0
        data := if buf.isSome ∧ wrap (len.2 + len.1) ≤ bufLen then some len.2 else none
        dataLen := len.1
        off := wrap (len.2 + len.1) }
  | 5 =>
      let v := fixed buf bufLen key.2 4
      { key := key.1, i := v.1, data := none, dataLen := bufLen, off := v.2 }
  | _ => { key := key.1, i := 0, data := none, dataLen := bufLen, off := key.2 }

/-- The data of a field of a buffer. -/
def Field.bytes (f : Field) (buf : Option (List UInt8)) : Option (List UInt8) :=
  f.data.map fun off => slice (buf.getD []) off f.dataLen

/-- The loop over the fields of a buffer that the parsers share. -/
def fieldLoop {σ : Type} (buf : Option (List UInt8)) (bufLen : ℕ)
    (step : σ → Field → Except ProtoBufFault σ) : ℕ → ℕ → σ → Except ProtoBufFault σ
  | 0, off, s => if off < bufLen then .error .outOfFuel else .ok s
  | fuel + 1, off, s =>
      if off < bufLen then do
        let s' ← step s (field buf bufLen off)
        fieldLoop buf bufLen step fuel (field buf bufLen off).off s'
      else .ok s

/-! ### Values of a message -/

/-- `_ProtoBufString`: a string is kept with a NUL behind it. -/
def string (str data : Option (List UInt8)) (dataLen : ℕ) : Option (List UInt8) :=
  if data.isSome ∨ dataLen = 0 then some (data.getD [] ++ [0]) else str

/-- `_ProtoBufBytes`, with the count of the array. -/
def bytes (array data : Option (List UInt8)) (dataLen : ℕ) : Option (List UInt8) × ℕ :=
  let array' := if data.isSome ∨ dataLen = 0 then some (data.getD []) else array
  (array', (array'.getD []).length)

/-! ### Writing -/

/-- A buffer that was allocated and not written. -/
def newBuf (junk : ℕ → UInt8) (n : ℕ) : List UInt8 :=
  (List.range n).map junk

/-- `_ProtoBufSetVarInt` -/
def setVarInt (w : ByteWriter UInt8) (i : ℕ) : ByteWriter UInt8 :=
  w.copyEach (Varint.encode i)

/-- `_ProtoBufSetLenDelim` -/
def setLenDelim (w : ByteWriter UInt8) (data : Option (List UInt8)) (dataLen : ℕ) :
    ByteWriter UInt8 :=
  if data.isSome ∨ dataLen = 0 then
    (setVarInt w dataLen).copy ((data.getD []).take dataLen)
  else w

/-- `_ProtoBufSetFixed` -/
def setFixed (w : ByteWriter UInt8) (i size : ℕ) : ByteWriter UInt8 :=
  w.copy (LittleEndian.bytes size i)

/-- The string in front of the first NUL. -/
def cString (str : List UInt8) : List UInt8 :=
  str.takeWhile (· ≠ 0)

/-- `_ProtoBufSetString` -/
def setString (w : ByteWriter UInt8) (str : Option (List UInt8)) (key : ℕ) : ByteWriter UInt8 :=
  setLenDelim (setVarInt w (8 * key + 2)) str (cString (str.getD [])).length

/-- `_ProtoBufSetBytes` -/
def setBytes (w : ByteWriter UInt8) (bytes : Option (List UInt8)) (bytesLen key : ℕ) :
    ByteWriter UInt8 :=
  setLenDelim (setVarInt w (8 * key + 2)) bytes bytesLen

/-- `_ProtoBufSetInt` -/
def setInt (w : ByteWriter UInt8) (i key : ℕ) : ByteWriter UInt8 :=
  setVarInt (setVarInt w (8 * key)) i

/-- The serializers' last step: the buffer, and the number of bytes written, or
the number of bytes needed without a buffer. -/
def written (f : ByteWriter UInt8 → ByteWriter UInt8) (buf : Option (List UInt8)) :
    List UInt8 × ℕ :=
  let w := f { buf := buf.getD [], off := 0 }
  (w.buf, if buf.isNone ∨ w.off ≤ w.buf.length then w.off else 0)

/-- The unknown fields are written behind the known ones. -/
def setUnknown (w : ByteWriter UInt8) (ctx : ProtoBufContext) : ByteWriter UInt8 :=
  match ctx.unknown with
  | none => w
  | some unknown => w.copy unknown

/-! ### Unknown fields -/

/-- `array_rm_range` -/
def rmRange (array : List UInt8) (index len : ℕ) : Except ProtoBufFault (List UInt8) :=
  if index < array.length ∧ index + len ≤ array.length then
    .ok (array.take index ++ array.drop (index + len))
  else .error .assertion

/-- Where `_ProtoBufUnknown` puts a field with this key: the offset of the first
field with a key not less, or of the last field if there is none.  A field with
the same key is removed. -/
def unknownLoop (key : ℕ) :
    ℕ → List UInt8 → ℕ → ℕ → Except ProtoBufFault (List UInt8 × ℕ)
  | 0, unknown, off, o =>
      if off < unknown.length then .error .outOfFuel else .ok (unknown, o)
  | fuel + 1, unknown, off, o =>
      if off < unknown.length then do
        let f := field (some unknown) unknown.length off
        let rest ← if f.key = key then rmRange unknown off (wrap (f.off + 2 ^ 64 - off))
          else .ok unknown
        if key ≤ f.key then return (rest, off)
        unknownLoop key fuel rest f.off off
      else .ok (unknown, o)

/-- The buffer in which `_ProtoBufUnknown` writes a field has room for the data
and ten bytes more. -/
def unknownField (junk : ℕ → UInt8) (key i : ℕ) (data : Option (List UInt8)) (dataLen : ℕ) :
    List UInt8 :=
  let bufLen := 10 + if key % 8 = 2 then dataLen else 0
  let start := setVarInt { buf := newBuf junk bufLen, off := 0 } key
  let w := match key % 8 with
    | 0 => setVarInt start i
    | 1 => setFixed start i 8
    | 2 => setLenDelim start data dataLen
    | 5 => setFixed start i 4
    | _ => start
  w.buf.take w.off

/-- `_ProtoBufUnknown` -/
def unknown (junk : ℕ → UInt8) (array : Option (List UInt8)) (key i : ℕ)
    (data : Option (List UInt8)) (dataLen : ℕ) : Except ProtoBufFault (List UInt8) := do
  let buf := unknownField junk key i data dataLen
  let place ← unknownLoop key (array.getD []).length (array.getD []) 0 0
  return place.1.take place.2 ++ buf ++ place.1.drop place.2

end ProtoBuf

end BreadwalletCore
