import BreadwalletCore.Data.BitArray
import BreadwalletCore.Transaction.Parse

/-!
# Bloom filters

`BRBloomFilter.c`.  `BRMurmur3_32` is a parameter: nothing depends on what it
computes.  The two floating-point expressions of `BRBloomFilterNew` are
arguments, so only the bounds that it puts on them are known.
-/

namespace BreadwalletCore

open Segment (slice At at_append at_zero_iff)

/-- `BLOOM_MAX_FILTER_LENGTH`. -/
def bloomMaxFilterLength : ℕ := 36000

/-- `BLOOM_MAX_HASH_FUNCS`. -/
def bloomMaxHashFuncs : UInt32 := 50

/-- `BLOOM_UPDATE_ALL`. -/
def bloomUpdateAll : UInt8 := 1

/-- A filter; `length` is the length of the byte list. -/
structure BRBloomFilter where
  filter : List UInt8
  hashFuncs : UInt32
  elemCount : ℕ := 0
  tweak : UInt32
  flags : UInt8
deriving DecidableEq

namespace BRBloomFilter

/-- `BRBloomFilterNew`. -/
def new (length : ℕ) (hashFuncs : UInt32) (tweak : UInt32) (flags : UInt8) : BRBloomFilter where
  filter := List.replicate (max (min length bloomMaxFilterLength) 1) 0
  hashFuncs := if hashFuncs > bloomMaxHashFuncs then bloomMaxHashFuncs else hashFuncs
  tweak := tweak
  flags := flags

/-- `BRBloomFilterSerialize`. -/
def serialize (f : BRBloomFilter) : List UInt8 :=
  varIntSet f.filter.length ++ (f.filter ++ (LittleEndian.bytes 4 f.hashFuncs.toNat ++
    (LittleEndian.bytes 4 f.tweak.toNat ++ LittleEndian.bytes 1 f.flags.toNat)))

/-- `BRBloomFilterParse`. -/
def parse (buf : List UInt8) : Except MemoryFault (Option BRBloomFilter) := do
  let length := (varInt buf 0).1
  let off := (varInt buf 0).2
  let filter :=
    if length ≤ bloomMaxFilterLength ∧ off + length ≤ buf.length then some (slice buf off length)
    else none
  let off := wrap (off + length)
  let hashFuncs ← getLE buf off 4
  let off := wrap (off + 4)
  let tweak ← getLE buf off 4
  let off := wrap (off + 4)
  let flags ← getLE buf off 1
  pure (filter.map (fun bytes =>
    { filter := bytes
      hashFuncs := UInt32.ofNat hashFuncs
      tweak := UInt32.ofNat tweak
      flags := UInt8.ofNat flags }))

section Data

variable (murmur3 : List UInt8 → UInt32 → UInt32)

/-- `_BRBloomFilterHash`. -/
def hash (f : BRBloomFilter) (data : List UInt8) (hashNum : ℕ) : ℕ :=
  (murmur3 data (UInt32.ofNat hashNum * 0xfba4c795 + f.tweak)).toNat % (f.filter.length * 8)

/-- The bit positions of some data. -/
def positions (f : BRBloomFilter) (data : List UInt8) : List ℕ :=
  (List.range f.hashFuncs.toNat).map (f.hash murmur3 data)

/-- `BRBloomFilterContainsData`. -/
def containsData (f : BRBloomFilter) (data : List UInt8) : Bool :=
  (f.positions murmur3 data).all (BitArray.test f.filter)

/-- `BRBloomFilterInsertData`. -/
def insertData (f : BRBloomFilter) (data : List UInt8) : BRBloomFilter :=
  { f with
    filter := BitArray.setAll f.filter (f.positions murmur3 data)
    elemCount := f.elemCount + 1 }

/-- `if (! BRBloomFilterContainsData(..)) BRBloomFilterInsertData(..)`. -/
def insertMissing (f : BRBloomFilter) (data : List UInt8) : BRBloomFilter :=
  if f.containsData murmur3 data then f else f.insertData murmur3 data

end Data

/-! ## No data is missed -/

section Contains

variable {murmur3 : List UInt8 → UInt32 → UInt32} {f : BRBloomFilter} {data other : List UInt8}

@[simp] theorem insertData_length :
    (f.insertData murmur3 data).filter.length = f.filter.length :=
  BitArray.length_setAll _ _

theorem insertData_positions :
    (f.insertData murmur3 other).positions murmur3 data = f.positions murmur3 data := by
  rw [positions, positions]
  refine List.map_congr_left (fun i _ => ?_)
  rw [hash, hash, insertData_length]
  rfl

/-- Contained data stays contained. -/
theorem containsData_mono
    (h : f.containsData murmur3 data = true) (other : List UInt8) :
    (f.insertData murmur3 other).containsData murmur3 data = true := by
  rw [containsData, List.all_eq_true] at h
  rw [containsData, insertData_positions, List.all_eq_true]
  intro i hi
  exact BitArray.test_setAll_of_test (h i hi) _

end Contains

/-! ## The codec -/

/-- A buffer that starts with a serialized filter. -/
theorem parse_of_at
    {f : BRBloomFilter} {buf : List UInt8}
    (hlen : f.filter.length ≤ bloomMaxFilterLength)
    (hbuf : buf.length < 2 ^ 63)
    (hat : At buf 0 f.serialize) :
    parse buf = .ok (some { f with elemCount := 0 }) := by
  have hmax : bloomMaxFilterLength = 36000 := rfl
  rw [serialize, ← IntWidth.spell_least, at_append, at_append, at_append, at_append] at hat
  obtain ⟨hsize, hfilter, hfuncs, htweak, hflags⟩ := hat
  have hvar := varInt_of_at hsize (IntWidth.least_fits (by omega))
  generalize hn : (IntWidth.least f.filter.length).size = n at hvar
  simp only [IntWidth.length_spell, Nat.zero_add, LittleEndian.length_bytes, hn]
    at hfilter hfuncs htweak hflags
  have hend := hflags.1
  rw [LittleEndian.length_bytes] at hend
  simp only [parse, hvar, if_pos (And.intro hlen hfilter.1), hfilter.2]
  rw [wrap_of_lt (x := n + f.filter.length) (by omega),
    wrap_of_lt (x := n + f.filter.length + 4) (by omega),
    wrap_of_lt (x := n + f.filter.length + 4 + 4) (by omega),
    getLE_uint32 hbuf hfuncs, getLE_uint32 hbuf htweak,
    getLE_of_at hbuf hflags f.flags.toNat_lt]
  simp [Machine.ok_bind]

/-- A filter within the length limit survives, apart from its element count. -/
theorem parse_serialize
    {f : BRBloomFilter}
    (hlen : f.filter.length ≤ bloomMaxFilterLength) :
    parse f.serialize = .ok (some { f with elemCount := 0 }) := by
  have hmax : bloomMaxFilterLength = 36000 := rfl
  refine parse_of_at hlen ?_ (at_zero_iff.mpr ⟨[], by simp⟩)
  have hwidth : (IntWidth.least f.filter.length).size ≤ 9 := by
    cases IntWidth.least f.filter.length <;> simp [IntWidth.size]
  simp only [serialize, ← IntWidth.spell_least, List.length_append, IntWidth.length_spell,
    LittleEndian.length_bytes]
  omega

/-! ## What becomes of a filter -/

/-- What insertions and round trips through the codec make of a filter. -/
inductive Later (murmur3 : List UInt8 → UInt32 → UInt32) (f : BRBloomFilter) :
    BRBloomFilter → Prop where
  | refl : Later murmur3 f f
  | insert {g : BRBloomFilter} (data : List UInt8) :
      Later murmur3 f g → Later murmur3 f (g.insertData murmur3 data)
  | parsed {g g' : BRBloomFilter} :
      Later murmur3 f g → parse g.serialize = .ok (some g') → Later murmur3 f g'

section Later

variable {murmur3 : List UInt8 → UInt32 → UInt32} {f g : BRBloomFilter} {data : List UInt8}

theorem Later.length
    (hlen : f.filter.length ≤ bloomMaxFilterLength)
    (h : Later murmur3 f g) :
    g.filter.length = f.filter.length := by
  induction h with
  | refl =>
      rfl
  | insert data _ ih =>
      exact insertData_length.trans ih
  | parsed _ hparse ih =>
      rw [parse_serialize (by omega)] at hparse
      cases hparse
      exact ih

/-- **No false negatives**, whatever becomes of the filter. -/
theorem Later.containsData
    (hlen : f.filter.length ≤ bloomMaxFilterLength)
    (hdata : f.containsData murmur3 data = true)
    (h : Later murmur3 f g) :
    g.containsData murmur3 data = true := by
  induction h with
  | refl =>
      exact hdata
  | insert other _ ih =>
      exact containsData_mono ih other
  | parsed hlater hparse ih =>
      rw [parse_serialize (by rw [hlater.length hlen]; exact hlen)] at hparse
      cases hparse
      exact ih

end Later

/-! ## Data that was never inserted -/

end BRBloomFilter

end BreadwalletCore
