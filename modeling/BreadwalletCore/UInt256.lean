import BreadwalletCore.Transaction

/-!
# Arithmetic on 256 bit integers

The functions of `BRInt.h` that the difficulty computation calls.  They work
on the words of the union `UInt256` (`u32[i]` and `u64[i]`, least significant
word first), carry by carry.

`bits` returns an `uint8_t`, so it is zero on a number with its top bit set.
-/

namespace BreadwalletCore

/-- A failed `assert`, or a signed overflow. -/
inductive ArithmeticFault
  | assertion
  | signedOverflow
deriving DecidableEq, Repr

namespace UInt256

/-- The word `a.u32[i]`. -/
def u32 (a : UInt256) (i : ℕ) : UInt32 :=
  UInt32.ofBitVec (a.extractLsb' (32 * i) 32)

/-- The word `a.u64[i]`. -/
def u64 (a : UInt256) (i : ℕ) : UInt64 :=
  UInt64.ofBitVec (a.extractLsb' (64 * i) 64)

/-- The integer with the given words `u32[0]`, `u32[1]`, .. -/
def ofU32 (words : List UInt32) : UInt256 :=
  words.foldr (fun word a => a <<< 32 ||| word.toBitVec.setWidth 256) 0

/-- The integer with the given words `u64[0]`, `u64[1]`, .. -/
def ofU64 (words : List UInt64) : UInt256 :=
  words.foldr (fun word a => a <<< 64 ||| word.toBitVec.setWidth 256) 0

/-- The inner loop of `bits`, over `bits = n, .., 1`. -/
def topBit (word : UInt32) : ℕ → ℕ
  | 0 => 0
  | n + 1 => if word &&& (1 <<< UInt32.ofNat (n + 1)) ≠ 0 then n + 1 else topBit word n

/-- The outer loop of `bits`, over `pos = n - 1, .., 0`. -/
def bitsLoop (number : UInt256) : ℕ → UInt8
  | 0 => 0
  | pos + 1 =>
      if number.u32 pos ≠ 0 then UInt8.ofNat (32 * pos + topBit (number.u32 pos) 31 + 1)
      else bitsLoop number pos

/-- `bits`. -/
def bits (number : UInt256) : UInt8 :=
  number.bitsLoop 8

/-- The loop of `add`, from word `i` on. -/
def addLoop (a b : UInt256) : ℕ → ℕ → UInt64 → List UInt32
  | 0, _, _ => []
  | n + 1, i, carry =>
      let sum := (a.u32 i).toUInt64 + (b.u32 i).toUInt64 + carry
      sum.toUInt32 :: addLoop a b n (i + 1) (sum >>> 32)

/-- `add`. -/
def add (a b : UInt256) : UInt256 :=
  ofU32 (addLoop a b 8 0 0)

/-- `addOne`. -/
def addOne (a : UInt256) : UInt256 :=
  add a (ofU64 [1, 0, 0, 0])

/-- `neg`. -/
def neg (a : UInt256) : UInt256 :=
  ofU64 ((List.range 4).map (fun i => ~~~ a.u64 i))

/-- `subtract`. -/
def subtract (a b : UInt256) : UInt256 :=
  add a (addOne (neg b))

/-- One iteration of `shiftLeft`, with `k = bits / 64` and `s = bits % 64`. -/
def shiftLeftStep (a : UInt256) (k s : ℕ) (r : List UInt64) (i : ℕ) : List UInt64 :=
  let r :=
    if i + k + 1 < 4 ∧ s ≠ 0 then
      r.modify (i + k + 1) (· ||| (a.u64 i >>> UInt64.ofNat (64 - s)))
    else r
  if i + k < 4 then r.modify (i + k) (· ||| (a.u64 i <<< UInt64.ofNat s)) else r

/-- `shiftLeft`. -/
def shiftLeft (a : UInt256) (bits : UInt8) : UInt256 :=
  ofU64 ((List.range 4).foldl
    (shiftLeftStep a (bits.toNat / 64) (bits.toNat % 64)) [0, 0, 0, 0])

/-- One iteration of `shiftRight`. -/
def shiftRightStep (a : UInt256) (k s : ℕ) (r : List UInt64) (i : ℕ) : List UInt64 :=
  let r :=
    if k + 1 ≤ i ∧ s ≠ 0 then
      r.modify (i - k - 1) (· ||| (a.u64 i <<< UInt64.ofNat (64 - s)))
    else r
  if k ≤ i then r.modify (i - k) (· ||| (a.u64 i >>> UInt64.ofNat s)) else r

/-- `shiftRight`. -/
def shiftRight (a : UInt256) (bits : UInt8) : UInt256 :=
  ofU64 ((List.range 4).foldl
    (shiftRightStep a (bits.toNat / 64) (bits.toNat % 64)) [0, 0, 0, 0])

/-- `UInt256SupEq`. -/
def supEq (a b : UInt256) : Bool :=
  a.u64 3 > b.u64 3 || (a.u64 3 == b.u64 3 &&
    (a.u64 2 > b.u64 2 || (a.u64 2 == b.u64 2 &&
      (a.u64 1 > b.u64 1 || (a.u64 1 == b.u64 1 && a.u64 0 ≥ b.u64 0)))))

/-- `r.u32[i / 32] |= (1 << (i & 31))`. -/
def setBit (r : UInt256) (i : ℕ) : UInt256 :=
  r ||| 1 <<< i

/-- The loop of `divide`, with `shift` one less than the counter. -/
def divideLoop : ℕ → UInt256 → UInt256 → UInt256 → UInt256
  | 0, _, _, r => r
  | shift + 1, num, div, r =>
      if supEq num div then
        divideLoop shift (subtract num div) (shiftRight div 1) (setBit r shift)
      else divideLoop shift num (shiftRight div 1) r

/-- `divide`. -/
def divide (a b : UInt256) : Except ArithmeticFault UInt256 :=
  if bits b = 0 then throw .assertion
  else if bits b > bits a then pure 0
  else
    let shift := bits a - bits b
    pure (divideLoop (shift.toNat + 1) a (shiftLeft b shift) 0)

/-- The loop of `multiplyThis32`, from word `i` on. -/
def multiplyLoop (a : UInt256) (b : UInt32) : ℕ → ℕ → UInt64 → List UInt32
  | 0, _, _ => []
  | k + 1, i, carry =>
      let n := carry + b.toUInt64 * (a.u32 i).toUInt64
      (n &&& 0xffffffff).toUInt32 :: multiplyLoop a b k (i + 1) (n >>> 32)

/-- `multiplyThis32`. -/
def multiplyThis32 (a : UInt256) (b : UInt32) : UInt256 :=
  ofU32 (multiplyLoop a b 8 0 0)

/-- `setCompact`.  The argument is an `int32_t`, so its size is negative from
`0x80000000` on, and the shift is converted to an `uint8_t`. -/
def setCompact (compact : UInt32) : UInt256 :=
  let size : ℤ := compact.toBitVec.toInt / 2 ^ 24
  let word := ofU32 [compact &&& 0x007fffff]
  if size ≤ 3 then shiftRight word (UInt8.ofInt (8 * (3 - size)))
  else shiftLeft word (UInt8.ofInt (8 * (size - 3)))

/-- The mantissa and size that `getCompact` starts from. -/
def compactParts (number : UInt256) : UInt32 × ℕ :=
  let size := ((bits number).toNat + 7) / 8
  if size ≤ 3 then (number.u32 0 <<< UInt32.ofNat (8 * (3 - size)), size)
  else ((shiftRight number (UInt8.ofNat (8 * (size - 3)))).u32 0, size)

/-- `getCompact`. -/
def getCompact (number : UInt256) : Except ArithmeticFault UInt32 :=
  let (compact, size) := compactParts number
  let (compact, size) :=
    if compact &&& 0x00800000 ≠ 0 then (compact >>> 8, size + 1) else (compact, size)
  if compact &&& ~~~0x007fffff ≠ 0 ∨ 256 ≤ size then throw .assertion
  else pure (compact ||| UInt32.ofNat size <<< 24)

end UInt256

example : UInt256.divide 1000000007 10 = .ok 100000000 := by rfl

end BreadwalletCore
