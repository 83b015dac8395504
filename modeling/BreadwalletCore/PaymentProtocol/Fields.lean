import BreadwalletCore.Data.WireFormat
import BreadwalletCore.PaymentProtocol.ProtoBuf

/-!
# Fields that are read back

The readers of `ProtoBuf` find the fields that the writers wrote, and the loop of
a parser over a message is a fold over its fields.
-/

namespace BreadwalletCore

namespace ProtoBuf

open Segment (slice At)

/-- The body of a parser's loop, given the key, the number, the data and its
length. -/
abbrev FieldStep (σ : Type) : Type :=
  σ → ℕ → ℕ → Option (List UInt8) → ℕ → Except ProtoBufFault σ

/-- The loop of a parser over a buffer. -/
def readFields {σ : Type} (step : FieldStep σ) (buf : Option (List UInt8)) (bufLen : ℕ) (s : σ) :
    Except ProtoBufFault σ :=
  fieldLoop buf bufLen (fun s f => step s f.key f.i (f.bytes buf) f.dataLen) bufLen 0 s

/-- The body of the loop at one field of a message of length `bufLen`. -/
def stepWire {σ : Type} (step : FieldStep σ) (bufLen : ℕ) (s : σ) (f : WireField) :
    Except ProtoBufFault σ :=
  match f.value with
  | .varint v => step s f.key v none bufLen
  | .fixed64 v => step s f.key v none bufLen
  | .data l => step s f.key 0 (some l) l.length
  | .fixed32 v => step s f.key v none bufLen
  | .bare _ => step s f.key 0 none bufLen

section Read

variable {buf : List UInt8} {off : ℕ}

/-- The loop of `_ProtoBufVarInt` reads a number written in front of the end. -/
theorem varIntLoop_of_at
    {n fuel i acc v : ℕ}
    (hat : At buf off (Varint.encodeLoop n v))
    (hn : v < 128 ^ n)
    (hpos : 0 < n)
    (hfuel : (Varint.encodeLoop n v).length ≤ fuel)
    (hfits : acc + v * 2 ^ (7 * i) < 2 ^ 64) :
    varIntLoop buf fuel off i acc =
      (acc + v * 2 ^ (7 * i), off + (Varint.encodeLoop n v).length) := by
  induction n generalizing fuel off i acc v with
  | zero =>
      omega
  | succ n ih =>
      rw [Varint.encodeLoop] at hat hfuel ⊢
      by_cases hlast : v / 128 = 0
      · rw [if_pos hlast] at hat hfuel ⊢
        obtain ⟨fuel, rfl⟩ : ∃ k, fuel = k + 1 :=
          ⟨fuel - 1, by rw [List.length_singleton] at hfuel; omega⟩
        have hget := (Segment.at_cons.mp hat).1
        have hbyte : (buf.getD off 0).toNat = v := by
          rw [List.getD_eq_getElem?_getD, hget, Option.getD_some, Varint.toNat_last hlast]
        have hsmall : v < 128 := by omega
        rw [varIntLoop, hbyte]
        rw [if_neg (by omega), Nat.mod_eq_of_lt hsmall, wrap, Nat.mod_eq_of_lt hfits]
        rfl
      · rw [if_neg hlast] at hat hfuel ⊢
        obtain ⟨fuel, rfl⟩ : ∃ k, fuel = k + 1 :=
          ⟨fuel - 1, by rw [List.length_cons] at hfuel; omega⟩
        obtain ⟨hget, hrest⟩ := Segment.at_cons.mp hat
        have hbyte : (buf.getD off 0).toNat = v % 128 + 128 := by
          rw [List.getD_eq_getElem?_getD, hget, Option.getD_some, Varint.toNat_more]
        have hsplit : v % 128 * 2 ^ (7 * i) + v / 128 * 2 ^ (7 * (i + 1)) = v * 2 ^ (7 * i) := by
          rw [show 7 * (i + 1) = 7 + 7 * i by omega, pow_add]
          have hdiv := Nat.mod_add_div v 128
          calc v % 128 * 2 ^ (7 * i) + v / 128 * (2 ^ 7 * 2 ^ (7 * i))
              = (v % 128 + 128 * (v / 128)) * 2 ^ (7 * i) := by ring
            _ = v * 2 ^ (7 * i) := by rw [hdiv]
        have hmod : (v % 128 + 128) % 128 = v % 128 := by omega
        have hsum : acc + v % 128 * 2 ^ (7 * i) < 2 ^ 64 := by omega
        rw [pow_succ] at hn
        have hpos' : 0 < n := by
          by_contra hzero
          obtain rfl : n = 0 := by omega
          rw [pow_zero] at hn
          omega
        rw [List.length_cons] at hfuel ⊢
        rw [varIntLoop, hbyte]
        rw [if_pos (by omega), hmod, wrap, Nat.mod_eq_of_lt hsum,
          ih hrest (by omega) hpos' (by omega) (by omega)]
        rw [Nat.add_assoc acc, hsplit]
        congr 1
        omega

theorem varInt_of_at
    {v : ℕ}
    (hat : At buf off (Varint.encode v))
    (hv : v < 2 ^ 64) :
    varInt (some buf) buf.length off = (v, off + (Varint.encode v).length) := by
  have hlen := hat.1
  rw [Varint.encode] at hat hlen
  rw [varInt]
  rw [varIntLoop_of_at hat (by omega) (by omega) (by omega) (by omega), Nat.mul_zero, pow_zero,
    Nat.mul_one, Nat.zero_add, Varint.encode]

theorem fixed_of_at
    {size v : ℕ}
    (hbuf : buf.length < 2 ^ 64)
    (hat : At buf off (LittleEndian.bytes size v))
    (hsize : size ≤ 8)
    (hv : v < 256 ^ size) :
    fixed (some buf) buf.length off size = (v, off + size) := by
  have hend := hat.1
  rw [LittleEndian.length_bytes] at hend
  have hslice := hat.2
  rw [LittleEndian.length_bytes] at hslice
  rw [fixed, wrap, Nat.mod_eq_of_lt (by omega), if_pos ⟨hend, hsize⟩, hslice, LittleEndian.value_bytes hv]

theorem key_mod_eight
    {f : WireField}
    (hfits : f.Fits) :
    f.key % 8 = f.value.type := by
  have hlt := hfits.2.type_lt
  rw [WireField.key]
  omega

theorem key_div_eight
    {f : WireField}
    (hfits : f.Fits) :
    f.key / 8 = f.number := by
  have hlt := hfits.2.type_lt
  rw [WireField.key]
  omega

theorem key_div_varint
    (number v : ℕ) :
    WireField.key ⟨number, .varint v⟩ / 8 = number := by
  change (8 * number + 0) / 8 = number
  omega

theorem key_div_data
    (number : ℕ) (l : List UInt8) :
    WireField.key ⟨number, .data l⟩ / 8 = number := by
  change (8 * number + 2) / 8 = number
  omega

/-- What is read where a field was written. -/
def fieldAt (f : WireField) (bufLen off : ℕ) : Field :=
  let behind := off + f.encode.length
  match f.value with
  | .varint v => { key := f.key, i := v, data := none, dataLen := bufLen, off := behind }
  | .fixed64 v => { key := f.key, i := v, data := none, dataLen := bufLen, off := behind }
  | .data l =>
      { key := f.key, i := 0, data := some (behind - l.length), dataLen := l.length, off := behind }
  | .fixed32 v => { key := f.key, i := v, data := none, dataLen := bufLen, off := behind }
  | .bare _ => { key := f.key, i := 0, data := none, dataLen := bufLen, off := behind }

/-- A field is read as it was written. -/
theorem field_eq_fieldAt
    {f : WireField}
    (hbuf : buf.length < 2 ^ 64)
    (hfits : f.Fits)
    (hat : At buf off f.encode) :
    field (some buf) buf.length off = fieldAt f buf.length off := by
  have hkey := key_mod_eight hfits
  have hend := hat.1
  obtain ⟨hatKey, hatValue⟩ := Segment.at_append.mp hat
  have hread := varInt_of_at hatKey hfits.1
  have hlen : f.encode.length = (Varint.encode f.key).length + f.value.encode.length := by
    rw [WireField.encode, List.length_append]
  obtain ⟨number, value⟩ := f
  have hfitsValue := hfits.2
  dsimp only at hkey hatValue hlen hfitsValue
  cases value with
  | varint v =>
      rw [field, hread]
      dsimp only
      rw [hkey, varInt_of_at hatValue hfitsValue, fieldAt, hlen, Nat.add_assoc]
      rfl
  | fixed64 v =>
      rw [field, hread]
      dsimp only
      rw [hkey, fixed_of_at hbuf hatValue (by omega) hfitsValue, fieldAt, hlen,
        WireValue.encode, LittleEndian.length_bytes, Nat.add_assoc]
      rfl
  | data l =>
      obtain ⟨hatLen, hatData⟩ := Segment.at_append.mp hatValue
      have hle := hatData.1
      have hnext : off + (WireField.encode ⟨number, .data l⟩).length =
          off + (Varint.encode (WireField.key ⟨number, .data l⟩)).length +
            (Varint.encode l.length).length + l.length := by
        rw [hlen, WireValue.encode, List.length_append]
        omega
      rw [field, hread]
      dsimp only
      rw [hkey]
      dsimp only [WireValue.type]
      rw [varInt_of_at hatLen hfitsValue]
      dsimp only
      rw [wrap, Nat.mod_eq_of_lt (by omega), if_pos ⟨rfl, hle⟩, fieldAt, hnext]
      dsimp only
      rw [Nat.add_sub_cancel]
      rfl
  | fixed32 v =>
      rw [field, hread]
      dsimp only
      rw [hkey, fixed_of_at hbuf hatValue (by omega) hfitsValue, fieldAt, hlen,
        WireValue.encode, LittleEndian.length_bytes, Nat.add_assoc]
      rfl
  | bare type =>
      rw [field, hread]
      dsimp only
      rw [hkey, fieldAt, hlen]
      rcases hfitsValue with rfl | rfl | rfl | rfl <;> rfl

/-- The data of a field are what was written. -/
theorem slice_data_of_at
    {number : ℕ} {l : List UInt8}
    (hat : At buf off (WireField.encode ⟨number, .data l⟩)) :
    slice buf (off + (WireField.encode ⟨number, .data l⟩).length - l.length) l.length = l := by
  obtain ⟨-, hatValue⟩ := Segment.at_append.mp hat
  obtain ⟨-, hatData⟩ := Segment.at_append.mp hatValue
  have hnext : off + (WireField.encode ⟨number, .data l⟩).length - l.length =
      off + (Varint.encode (WireField.key ⟨number, .data l⟩)).length +
        (Varint.encode l.length).length := by
    rw [WireField.encode, List.length_append, WireValue.encode, List.length_append]
    omega
  rw [hnext]
  exact hatData.2

/-- The loop goes on behind a field, with what was written. -/
theorem field_of_at
    {f : WireField} {σ : Type} (step : FieldStep σ) (s : σ)
    (hbuf : buf.length < 2 ^ 64)
    (hfits : f.Fits)
    (hat : At buf off f.encode) :
    (field (some buf) buf.length off).off = off + f.encode.length ∧
      (field (some buf) buf.length off).key = f.key ∧
      step s (field (some buf) buf.length off).key (field (some buf) buf.length off).i
          ((field (some buf) buf.length off).bytes (some buf))
          (field (some buf) buf.length off).dataLen =
        stepWire step buf.length s f := by
  rw [field_eq_fieldAt hbuf hfits hat]
  obtain ⟨number, value⟩ := f
  cases value with
  | varint v => exact ⟨rfl, rfl, rfl⟩
  | fixed64 v => exact ⟨rfl, rfl, rfl⟩
  | data l =>
      refine ⟨rfl, rfl, ?_⟩
      rw [fieldAt, Field.bytes, stepWire]
      dsimp only [Option.map_some, Option.getD_some]
      rw [slice_data_of_at hat]
  | fixed32 v => exact ⟨rfl, rfl, rfl⟩
  | bare type => exact ⟨rfl, rfl, rfl⟩

/-- The loop over a message is a fold over its fields. -/
theorem fieldLoop_encodeAll
    {σ : Type} {step : FieldStep σ} {fs : List WireField}
    (hbuf : buf.length < 2 ^ 64)
    (hfits : ∀ f ∈ fs, f.Fits)
    (hat : At buf off (WireField.encodeAll fs))
    (hend : off + (WireField.encodeAll fs).length = buf.length)
    (s : σ) {fuel : ℕ}
    (hfuel : fs.length ≤ fuel) :
    fieldLoop (some buf) buf.length
        (fun s f => step s f.key f.i (f.bytes (some buf)) f.dataLen) fuel off s =
      fs.foldlM (stepWire step buf.length) s := by
  induction fs generalizing off fuel s with
  | nil =>
      have hdone : ¬ off < buf.length := by
        rw [← hend]
        exact Nat.lt_irrefl _
      cases fuel with
      | zero =>
          rw [fieldLoop, if_neg hdone]
          rfl
      | succ fuel =>
          rw [fieldLoop, if_neg hdone]
          rfl
  | cons f fs ih =>
      obtain ⟨fuel, rfl⟩ : ∃ k, fuel = k + 1 :=
        ⟨fuel - 1, by rw [List.length_cons] at hfuel; omega⟩
      rw [List.forall_mem_cons] at hfits
      rw [WireField.encodeAll_cons] at hat hend
      rw [List.length_append] at hend
      obtain ⟨hatField, hatRest⟩ := Segment.at_append.mp hat
      have hpos := f.length_encode_pos
      obtain ⟨hoff, -, hstep⟩ := field_of_at step s hbuf hfits.1 hatField
      rw [fieldLoop, if_pos (by omega), hstep, hoff, List.foldlM_cons]
      cases stepWire step buf.length s f with
      | error e =>
          rfl
      | ok s' =>
          rw [Machine.ok_bind, Machine.ok_bind]
          exact ih hfits.2 hatRest (by omega) s' (by rw [List.length_cons] at hfuel; omega)

theorem readFields_encodeAll
    {σ : Type} (step : FieldStep σ) {fs : List WireField}
    (hfits : ∀ f ∈ fs, f.Fits)
    (hlen : (WireField.encodeAll fs).length < 2 ^ 64)
    (s : σ) :
    readFields step (some (WireField.encodeAll fs)) (WireField.encodeAll fs).length s =
      fs.foldlM (stepWire step (WireField.encodeAll fs).length) s := by
  have hat : At (WireField.encodeAll fs) 0 (WireField.encodeAll fs) := by
    refine ⟨by omega, ?_⟩
    rw [Segment.slice, List.drop_zero, List.take_of_length_le le_rfl]
  exact fieldLoop_encodeAll hlen hfits hat (Nat.zero_add _) s
    (WireField.length_le_encodeAll fs)

end Read

end ProtoBuf

end BreadwalletCore
