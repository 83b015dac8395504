import BreadwalletCore.Data.LittleEndian
import BreadwalletCore.Data.Varint

/-!
# Tagged fields

A message is a sequence of fields, each a number and a value: an integer in as
many bytes as it needs or in eight or four of them, bytes behind their length, or
nothing at all.  The key in front of a field holds its number and how its value is
written.
-/

inductive WireValue where
  | varint (v : ℕ)
  | fixed64 (v : ℕ)
  | data (l : List UInt8)
  | fixed32 (v : ℕ)
  | bare (type : ℕ)
deriving DecidableEq

namespace WireValue

/-- The wire type. -/
def type : WireValue → ℕ
  | varint _ => 0
  | fixed64 _ => 1
  | data _ => 2
  | fixed32 _ => 5
  | bare type => type

def encode : WireValue → List UInt8
  | varint v => Varint.encode v
  | fixed64 v => LittleEndian.bytes 8 v
  | data l => Varint.encode l.length ++ l
  | fixed32 v => LittleEndian.bytes 4 v
  | bare _ => []

/-- It can be written, and has a wire type of its own. -/
def Fits : WireValue → Prop
  | varint v => v < 2 ^ 64
  | fixed64 v => v < 2 ^ 64
  | data l => l.length < 2 ^ 64
  | fixed32 v => v < 2 ^ 32
  | bare type => type = 3 ∨ type = 4 ∨ type = 6 ∨ type = 7

theorem Fits.type_lt
    {value : WireValue}
    (h : value.Fits) :
    value.type < 8 := by
  cases value with
  | bare type =>
      rw [WireValue.type]
      rw [Fits] at h
      omega
  | varint v =>
      exact Nat.succ_pos 7
  | fixed64 v =>
      exact Nat.one_lt_succ_succ 6
  | data l =>
      rw [WireValue.type]
      omega
  | fixed32 v =>
      rw [WireValue.type]
      omega

end WireValue

structure WireField where
  number : ℕ
  value : WireValue
deriving DecidableEq

namespace WireField

def key (f : WireField) : ℕ :=
  8 * f.number + f.value.type

def encode (f : WireField) : List UInt8 :=
  Varint.encode f.key ++ f.value.encode

/-- Its numbers can be written. -/
def Fits (f : WireField) : Prop :=
  f.key < 2 ^ 64 ∧ f.value.Fits

/-- A sequence of fields. -/
def encodeAll (fs : List WireField) : List UInt8 :=
  fs.flatMap encode

theorem length_encode_pos
    (f : WireField) :
    0 < f.encode.length := by
  have hkey := Varint.length_encode_pos f.key
  rw [encode, List.length_append]
  omega

@[simp] theorem encodeAll_cons
    (f : WireField) (fs : List WireField) :
    encodeAll (f :: fs) = f.encode ++ encodeAll fs := by
  rfl

@[simp] theorem encodeAll_append
    (fs gs : List WireField) :
    encodeAll (fs ++ gs) = encodeAll fs ++ encodeAll gs := by
  exact List.flatMap_append

theorem length_le_encodeAll
    (fs : List WireField) :
    fs.length ≤ (encodeAll fs).length := by
  induction fs with
  | nil =>
      exact Nat.le_refl 0
  | cons f fs ih =>
      have hpos := f.length_encode_pos
      rw [encodeAll_cons, List.length_cons, List.length_append]
      omega

theorem length_data_le
    (number : ℕ) (l : List UInt8) :
    l.length ≤ (encode ⟨number, .data l⟩).length := by
  rw [encode, WireValue.encode, List.length_append, List.length_append]
  omega

/-- The fields of a message are written in at least as many bytes as any one of
them. -/
theorem length_encode_le
    {f : WireField} {fs : List WireField}
    (hf : f ∈ fs) :
    f.encode.length ≤ (encodeAll fs).length := by
  induction fs with
  | nil =>
      cases hf
  | cons g fs ih =>
      rw [encodeAll_cons, List.length_append]
      rcases List.mem_cons.mp hf with rfl | hf
      · omega
      · have hle := ih hf
        omega

/-! ### Injectivity -/

theorem WireValue.encode_append_inj
    {a b : WireValue} {x y : List UInt8}
    (ha : a.Fits)
    (hb : b.Fits)
    (htype : a.type = b.type)
    (h : a.encode ++ x = b.encode ++ y) :
    a = b ∧ x = y := by
  have hbare : ∀ t, WireValue.Fits (.bare t) → t ≠ 0 ∧ t ≠ 1 ∧ t ≠ 2 ∧ t ≠ 5 := by
    intro t ht
    rw [WireValue.Fits] at ht
    omega
  have hbytes : ∀ {n v w : ℕ}, v < 256 ^ n → w < 256 ^ n →
      LittleEndian.bytes n v ++ x = LittleEndian.bytes n w ++ y → v = w ∧ x = y := by
    intro n v w hv hw heq
    obtain ⟨hsame, hrest⟩ := List.append_inj heq
      (by rw [LittleEndian.length_bytes, LittleEndian.length_bytes])
    have hvalue := congrArg LittleEndian.value hsame
    rw [LittleEndian.value_bytes hv, LittleEndian.value_bytes hw] at hvalue
    exact ⟨hvalue, hrest⟩
  cases a with
  | varint v =>
      cases b with
      | varint w =>
          obtain ⟨rfl, hrest⟩ := Varint.encode_append_inj ha hb h
          exact ⟨rfl, hrest⟩
      | bare t =>
          exact absurd htype.symm (hbare t hb).1
      | _ => cases htype
  | fixed64 v =>
      cases b with
      | fixed64 w =>
          obtain ⟨rfl, hrest⟩ := hbytes ha hb h
          exact ⟨rfl, hrest⟩
      | bare t =>
          exact absurd htype.symm (hbare t hb).2.1
      | _ => cases htype
  | data l =>
      cases b with
      | data m =>
          rw [WireValue.encode, WireValue.encode, List.append_assoc, List.append_assoc] at h
          obtain ⟨hlen, hrest⟩ := Varint.encode_append_inj ha hb h
          obtain ⟨rfl, htail⟩ := List.append_inj hrest hlen
          exact ⟨rfl, htail⟩
      | bare t =>
          exact absurd htype.symm (hbare t hb).2.2.1
      | _ => cases htype
  | fixed32 v =>
      cases b with
      | fixed32 w =>
          obtain ⟨rfl, hrest⟩ := hbytes ha hb h
          exact ⟨rfl, hrest⟩
      | bare t =>
          exact absurd htype.symm (hbare t hb).2.2.2
      | _ => cases htype
  | bare t =>
      obtain ⟨h₀, h₁, h₂, h₅⟩ := hbare t ha
      cases b with
      | varint w => exact absurd htype h₀
      | fixed64 w => exact absurd htype h₁
      | data m => exact absurd htype h₂
      | fixed32 w => exact absurd htype h₅
      | bare t' =>
          cases htype
          exact ⟨rfl, h⟩

/-- The key of a field can be read off its bytes. -/
theorem key_append_inj
    {f g : WireField} {x y : List UInt8}
    (hf : f.Fits)
    (hg : g.Fits)
    (h : f.encode ++ x = g.encode ++ y) :
    f.key = g.key ∧ f.value.encode ++ x = g.value.encode ++ y := by
  rw [encode, encode, List.append_assoc, List.append_assoc] at h
  exact Varint.encode_append_inj hf.1 hg.1 h

theorem encode_append_inj
    {f g : WireField} {x y : List UInt8}
    (hf : f.Fits)
    (hg : g.Fits)
    (h : f.encode ++ x = g.encode ++ y) :
    f = g ∧ x = y := by
  obtain ⟨hkey, hrest⟩ := key_append_inj hf hg h
  have hftype := hf.2.type_lt
  have hgtype := hg.2.type_lt
  rw [key, key] at hkey
  obtain ⟨hvalue, htail⟩ := WireValue.encode_append_inj hf.2 hg.2 (by omega) hrest
  obtain ⟨number, value⟩ := f
  obtain ⟨number', value'⟩ := g
  dsimp only at hvalue hkey
  subst hvalue
  obtain rfl : number = number' := by
    omega
  exact ⟨rfl, htail⟩

/-- Messages of as many fields are told apart by their bytes. -/
theorem encodeAll_append_inj
    {fs gs : List WireField} {x y : List UInt8}
    (hf : ∀ f ∈ fs, f.Fits)
    (hg : ∀ g ∈ gs, g.Fits)
    (hlen : fs.length = gs.length)
    (h : encodeAll fs ++ x = encodeAll gs ++ y) :
    fs = gs ∧ x = y := by
  induction fs generalizing gs with
  | nil =>
      obtain rfl := List.length_eq_zero_iff.mp hlen.symm
      exact ⟨rfl, h⟩
  | cons f fs ih =>
      cases gs with
      | nil =>
          cases hlen
      | cons g gs =>
          rw [List.forall_mem_cons] at hf hg
          rw [encodeAll_cons, encodeAll_cons, List.append_assoc, List.append_assoc] at h
          obtain ⟨rfl, hrest⟩ := encode_append_inj hf.1 hg.1 h
          obtain ⟨rfl, htail⟩ := ih hf.2 hg.2 (Nat.succ.inj hlen) hrest
          exact ⟨rfl, htail⟩

end WireField
