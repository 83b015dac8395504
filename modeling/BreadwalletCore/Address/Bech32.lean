import BreadwalletCore.Address.Base58
import BreadwalletCore.Data.LinearChecksum

/-!
# Bech32

`BRBech32Encode` and `BRBech32Decode`.  A character sequence is read and written
as the digits of base 32 it stands for: the loop of each function that regroups
bits is a change between numerals of base 256 and of base 32 (`stepDigits_range`,
`regroup_spec`), and the checksum is linear over exclusive or.
-/

namespace BreadwalletCore

open Digits (value digits)

/-- The witness version 0. -/
def OP_0 : UInt8 := 0x00

/-- The witness version 1. -/
def OP_1 : UInt8 := 0x51

namespace Bech32

/-- `-(x & 1) & g`. -/
def select (x g : UInt32) : UInt32 :=
  (-(x &&& 1)) &&& g

/-- The macro `polymod`. -/
def polymod (x : UInt32) : UInt32 :=
  ((x &&& 0x1ffffff) <<< 5) ^^^ select (x >>> 25) 0x3b6a57b2 ^^^ select (x >>> 26) 0x26508e6d ^^^
    select (x >>> 27) 0x1ea119fa ^^^ select (x >>> 28) 0x3d4233dd ^^^ select (x >>> 29) 0x2a1462b3

def islower (c : UInt8) : Bool :=
  0x61 ≤ c && c ≤ 0x7a

def isupper (c : UInt8) : Bool :=
  0x41 ≤ c && c ≤ 0x5a

def tolower (c : UInt8) : UInt8 :=
  if isupper c then c + 0x20 else c

/-- `chars` of `BRBech32Encode`. -/
def chars : List UInt8 :=
  [0x71, 0x70, 0x7a, 0x72, 0x79, 0x39, 0x78, 0x38, 0x67, 0x66, 0x32, 0x74, 0x76, 0x64, 0x77, 0x30,
    0x73, 0x33, 0x6a, 0x6e, 0x35, 0x34, 0x6b, 0x68, 0x63, 0x65, 0x36, 0x6d, 0x75, 0x61, 0x37, 0x6c]

/-- The `switch` of `BRBech32Decode`, on a character in lower case. -/
def bech32Digit (c : UInt8) : Option ℕ :=
  match c with
  | 0x71 => some 0 | 0x70 => some 1 | 0x7a => some 2 | 0x72 => some 3
  | 0x79 => some 4 | 0x39 => some 5 | 0x78 => some 6 | 0x38 => some 7
  | 0x67 => some 8 | 0x66 => some 9 | 0x32 => some 10 | 0x74 => some 11
  | 0x76 => some 12 | 0x64 => some 13 | 0x77 => some 14 | 0x30 => some 15
  | 0x73 => some 16 | 0x33 => some 17 | 0x6a => some 18 | 0x6e => some 19
  | 0x35 => some 20 | 0x34 => some 21 | 0x6b => some 22 | 0x68 => some 23
  | 0x63 => some 24 | 0x65 => some 25 | 0x36 => some 26 | 0x6d => some 27
  | 0x75 => some 28 | 0x61 => some 29 | 0x37 => some 30 | 0x6c => some 31
  | _ => none

/-- `buf[i] |= v`. -/
def orAt (buf : List UInt8) (i v : ℕ) : List UInt8 :=
  buf.set i (buf.getD i 0 ||| UInt8.ofNat v)

/-- The bits of the digit of index `j`, put in `buf`. -/
def regroup (buf : List UInt8) (j c : ℕ) : List UInt8 :=
  let x := j % 8 * 5 - j % 8 * 5 / 8 * 8
  let buf := orAt buf (j / 8 * 5 + j % 8 * 5 / 8) ((c <<< 3) >>> x)
  if x > 3 then orAt buf (j / 8 * 5 + j % 8 * 5 / 8 + 1) (c <<< (11 - x)) else buf

/-- `sep`, counted down to the last separator. -/
def sepLoop (addr : List UInt8) : ℕ → ℕ
  | 0 => 0
  | sep + 1 => if addr.getD (sep + 1) 0 = 0x31 then sep + 1 else sepLoop addr sep

/-- What the digit loop of `BRBech32Decode` changes. -/
structure Decoder where
  chk : UInt32
  ver : ℕ
  buf : List UInt8

/-- The digit loop of `BRBech32Decode` from the character of index `i`, which has
the digit of index `i - (sep + 2)`. -/
def digitLoop (addrLen sep : ℕ) (i : ℕ) (d : Decoder) : List UInt8 → Option Decoder
  | [] => some d
  | ch :: rest =>
      match bech32Digit (tolower ch) with
      | none => none
      | some c =>
          let chk := polymod d.chk ^^^ UInt32.ofNat c
          if i = sep + 1 then
            digitLoop addrLen sep (i + 1) { d with chk := chk, ver := c } rest
          else if i + 6 ≥ addrLen then
            digitLoop addrLen sep (i + 1) { d with chk := chk } rest
          else
            digitLoop addrLen sep (i + 1)
              { d with chk := chk, buf := regroup d.buf (i - (sep + 2)) c } rest

/-- `chk` after the human readable part, in the order of `BRBech32Decode`. -/
def hrpChk (hrp : List UInt8) : UInt32 :=
  hrp.foldl (fun chk c => polymod chk ^^^ (c &&& 0x1f).toUInt32)
    (polymod (hrp.foldl (fun chk c => polymod chk ^^^ (tolower c >>> 5).toUInt32) 1))

/-- `BRBech32Decode`, of a string: the human readable part and the data. -/
def BRBech32Decode (addr : List UInt8) : Option (List UInt8 × List UInt8) :=
  if addr.any (fun c => c < 33 || c > 126) then none
  else
    let addrLen := addr.length
    let sep := sepLoop addr addrLen
    if addrLen < 8 ∨ addrLen > 90 ∨ sep < 1 ∨ sep + 2 + 6 > addrLen ∨
        (addr.any isupper && addr.any islower) then none
    else
      match digitLoop addrLen sep (sep + 1) ⟨hrpChk (addr.take sep), 0xff, List.replicate 52 0⟩
          (addr.drop (sep + 1)) with
      | none => none
      | some d =>
          let bufLen := (addrLen - (sep + 2 + 6)) * 5 / 8
          if d.chk ≠ 1 ∨ d.ver > 16 ∨ bufLen < 2 ∨ bufLen > 40 then none
          else some ((addr.take sep).map tolower,
            (if d.ver = 0 then OP_0 else UInt8.ofNat d.ver + OP_1 - 1) :: UInt8.ofNat bufLen ::
              d.buf.take bufLen)

/-- What ends `BRBech32Encode` before it returns a string: it returns 0, or it
writes outside `addr[91]`. -/
inductive Stop where
  | zero
  | overrun
  deriving DecidableEq

/-- `addr[0..i]` and `chk` of `BRBech32Encode`. -/
structure Encoder where
  addr : List UInt8
  chk : UInt32

/-- `addr[i++] = c`. -/
def put (e : Encoder) (c : UInt8) : Except Stop Encoder :=
  if e.addr.length < 91 then .ok { e with addr := e.addr ++ [c] } else .error .overrun

/-- `chk = polymod(chk) ^ c, addr[i++] = chars[c]`. -/
def emit (e : Encoder) (c : ℕ) : Except Stop Encoder :=
  put { e with chk := polymod e.chk ^^^ UInt32.ofNat c } (chars.getD c 0)

/-- The first loop of `BRBech32Encode`. -/
def hrpLoop (e : Encoder) : List UInt8 → Except Stop Encoder
  | [] => .ok e
  | c :: hrp =>
      if e.addr.length > 83 ∨ c < 33 ∨ c > 126 ∨ isupper c then .error .zero
      else do
        let e ← put { e with chk := polymod e.chk ^^^ (c >>> 5).toUInt32 } c
        hrpLoop e hrp

/-- The loop over the program of `BRBech32Encode`, on `b` and the output. -/
def dataStep (data : List UInt8) (len : ℕ) (s : UInt8 × Encoder) (j : ℕ) :
    Except Stop (UInt8 × Encoder) := do
  let a := s.1
  let b := if j < len then data.getD (2 + j) 0 else 0
  let x := j % 5 * 8 - j % 5 * 8 / 5 * 5
  let c := ((a.toNat <<< (5 - x)) ||| (b.toNat >>> (3 + x))) &&& 0x1f
  let e ← if j < len ∨ j % 5 > 0 then emit s.2 c else .ok s.2
  let c := if x ≥ 2 then (b.toNat >>> (x - 2)) &&& 0x1f else c
  let e ← if x ≥ 2 ∧ j < len then emit e c else .ok e
  return (b, e)

/-- The last six digits of `BRBech32Encode`. -/
def checkLoop (e : Encoder) : Except Stop Encoder :=
  (List.range 6).foldlM
    (fun e j => put e (chars.getD (((e.chk >>> UInt32.ofNat ((5 - j) * 5)) &&& 0x1f).toNat) 0)) e

/-- `BRBech32Encode`: the string, with its NUL. -/
def BRBech32Encode (hrp data : List UInt8) : Except Stop (List UInt8) := do
  let e ← hrpLoop ⟨[], 1⟩ hrp
  let chk := hrp.foldl (fun chk c => polymod chk ^^^ (c &&& 0x1f).toUInt32) (polymod e.chk)
  let e ← put { e with chk := chk } 0x31
  let op := data.getD 0 0
  if e.addr.length < 1 ∨ (op > OP_0 ∧ op < OP_1) then .error .zero
  else
    let ver := if op ≥ OP_1 then op + 1 - OP_1 else 0
    let len := (data.getD 1 0).toNat
    if ver > 16 ∨ len < 2 ∨ len > 40 ∨ e.addr.length + 1 + len + 6 ≥ 91 then .error .zero
    else do
      let e ← emit e ver.toNat
      let (_, e) ← (List.range (len + 1)).foldlM (dataStep data len) (0, e)
      let e ← checkLoop { e with chk := polymod^[6] e.chk ^^^ 1 }
      let e ← put e 0
      return e.addr

/-- A fact about every byte. -/
theorem forall_byte
    {P : UInt8 → Prop}
    (h : ∀ n < 256, P (UInt8.ofNat n)) (c : UInt8) :
    P c := by
  have hc := h c.toNat c.toNat_lt
  rwa [UInt8.ofNat_toNat] at hc

/-! ## The checksum -/

theorem and_one_cases
    (x : UInt32) :
    x &&& 1 = 0 ∨ x &&& 1 = 1 := by
  have hmod : (x &&& 1).toNat = x.toNat % 2 := by
    rw [UInt32.toNat_and]
    exact Nat.and_one_is_mod _
  rcases Nat.mod_two_eq_zero_or_one x.toNat with h | h
  · exact .inl (UInt32.toNat_inj.mp (by rw [hmod, h]; rfl))
  · exact .inr (UInt32.toNat_inj.mp (by rw [hmod, h]; rfl))

theorem and_xor
    (a b m : UInt32) :
    (a ^^^ b) &&& m = (a &&& m) ^^^ (b &&& m) := by
  refine UInt32.toNat_inj.mp ?_
  simp only [UInt32.toNat_and, UInt32.toNat_xor, Nat.and_xor_distrib_right]

theorem select_xor
    (a b g : UInt32) :
    select (a ^^^ b) g = select a g ^^^ select b g := by
  rw [select, select, select, and_xor]
  rcases and_one_cases a with ha | ha <;> rcases and_one_cases b with hb | hb <;>
    rw [ha, hb]
  · rw [UInt32.zero_xor, UInt32.neg_zero, UInt32.zero_and, UInt32.zero_xor]
  · rw [UInt32.zero_xor, UInt32.neg_zero, UInt32.zero_and, UInt32.zero_xor]
  · rw [UInt32.xor_zero, UInt32.neg_zero, UInt32.zero_and, UInt32.xor_zero]
  · rw [UInt32.xor_self, UInt32.xor_self, UInt32.neg_zero, UInt32.zero_and]

theorem select_zero
    (g : UInt32) :
    select 0 g = 0 := by
  rw [select, UInt32.zero_and, UInt32.neg_zero, UInt32.zero_and]

theorem toNat_select_lt
    {g : UInt32}
    (hg : g.toNat < 2 ^ 30) (x : UInt32) :
    (select x g).toNat < 2 ^ 30 := by
  rw [select, UInt32.toNat_and]
  exact lt_of_le_of_lt Nat.and_le_right hg

theorem shiftRight_eq_zero
    {x k : UInt32}
    (hk : k.toNat < 32)
    (hx : x.toNat < 2 ^ k.toNat) :
    x >>> k = 0 := by
  refine UInt32.toNat_inj.mp ?_
  rw [UInt32.toNat_shiftRight, Nat.mod_eq_of_lt hk, Nat.shiftRight_eq_div_pow,
    Nat.div_eq_of_lt hx]
  rfl

theorem toNat_low_shiftLeft
    (x : UInt32) :
    ((x &&& 0x1ffffff) <<< 5).toNat = x.toNat % 2 ^ 25 * 2 ^ 5 := by
  have hand : (x &&& 0x1ffffff).toNat = x.toNat % 2 ^ 25 := by
    rw [UInt32.toNat_and]
    exact Nat.and_two_pow_sub_one_eq_mod _ 25
  have hlt := Nat.mod_lt x.toNat (Nat.two_pow_pos 25)
  have hfive : (5 : UInt32).toNat % 32 = 5 := rfl
  rw [UInt32.toNat_shiftLeft, hand, hfive, Nat.shiftLeft_eq]
  exact Nat.mod_eq_of_lt (by omega)

theorem polymod_linear :
    LinearChecksum.Linear polymod 5 6 where
  xor a b := by
    simp only [polymod, UInt32.shiftRight_xor, UInt32.shiftLeft_xor, and_xor, select_xor]
    ac_rfl
  shift x hx := by
    have hlt : x.toNat < 2 ^ 25 := by omega
    have hzero : ∀ k : UInt32, 25 ≤ k.toNat → k.toNat < 32 → x >>> k = 0 := fun k hk hk' =>
      shiftRight_eq_zero hk' (lt_of_lt_of_le hlt (Nat.pow_le_pow_right (by omega) hk))
    rw [polymod, hzero 25 (by decide) (by decide), hzero 26 (by decide) (by decide),
      hzero 27 (by decide) (by decide), hzero 28 (by decide) (by decide),
      hzero 29 (by decide) (by decide)]
    simp only [select_zero, UInt32.xor_zero]
    rw [toNat_low_shiftLeft, Nat.mod_eq_of_lt hlt]
  lt x := by
    have hlow : ((x &&& 0x1ffffff) <<< 5).toNat < 2 ^ 30 := by
      have hlt := Nat.mod_lt x.toNat (Nat.two_pow_pos 25)
      rw [toNat_low_shiftLeft]
      omega
    simp only [polymod, UInt32.toNat_xor]
    refine Nat.xor_lt_two_pow (Nat.xor_lt_two_pow (Nat.xor_lt_two_pow (Nat.xor_lt_two_pow
      (Nat.xor_lt_two_pow hlow ?_) ?_) ?_) ?_) ?_ <;>
      exact toNat_select_lt (by decide) _
  fits := by decide
  pos := by decide

/-- The six digits that complete a checksum. -/
def checkDigits (chk : UInt32) : List ℕ :=
  digits 32 (polymod^[6] chk ^^^ 1).toNat 6

theorem run_eq_one_iff
    {l : List ℕ}
    (hl : ∀ d ∈ l, d < 32)
    (hlen : l.length = 6) (chk : UInt32) :
    LinearChecksum.run polymod chk l = 1 ↔ l = checkDigits chk :=
  LinearChecksum.run_eq_iff polymod_linear hl hlen (by omega) (by decide) chk

/-! ## Digits written -/

/-- The characters of some digits. -/
def text (l : List ℕ) : List UInt8 :=
  l.map (fun c => chars.getD c 0)

/-- Some digits written in a row. -/
def emits (e : Encoder) (l : List ℕ) : Except Stop Encoder :=
  l.foldlM emit e

@[simp] theorem emits_singleton
    (e : Encoder) (c : ℕ) :
    emits e [c] = emit e c := by
  rw [emits, List.foldlM_cons]
  exact bind_pure _

theorem emits_append
    (e : Encoder) (l₁ l₂ : List ℕ) :
    emits e (l₁ ++ l₂) = emits e l₁ >>= fun e => emits e l₂ := by
  rw [emits, List.foldlM_append]
  rfl

/-- The digits are written if there is room for all of them. -/
theorem emits_eq
    (e : Encoder) (l : List ℕ) (h : e.addr.length ≤ 91) :
    emits e l =
      if e.addr.length + l.length ≤ 91 then
        .ok ⟨e.addr ++ text l, LinearChecksum.run polymod e.chk l⟩
      else .error .overrun := by
  induction l generalizing e with
  | nil =>
      rw [if_pos (by simpa using h), text, List.map_nil, List.append_nil]
      rfl
  | cons c l ih =>
      rw [emits, List.foldlM_cons, emit, put]
      by_cases hlt : e.addr.length < 91
      · have hrec := ih ⟨e.addr ++ [chars.getD c 0], polymod e.chk ^^^ UInt32.ofNat c⟩
          (by simpa using hlt)
        rw [if_pos hlt]
        refine hrec.trans ?_
        simp only [List.length_append, List.length_cons, List.length_nil, text,
          List.map_cons, List.append_assoc, List.singleton_append, LinearChecksum.run_cons]
        congr 1
        simp only [eq_iff_iff]
        omega
      · rw [if_neg hlt, if_neg (by rw [List.length_cons]; omega)]
        rfl

/-- The digits that one pass of the loop over the program writes. -/
def stepDigits (a b len j : ℕ) : List ℕ :=
  let x := j % 5 * 8 - j % 5 * 8 / 5 * 5
  (if j < len ∨ j % 5 > 0 then [((a <<< (5 - x)) ||| (b >>> (3 + x))) &&& 0x1f] else []) ++
    if x ≥ 2 ∧ j < len then [(b >>> (x - 2)) &&& 0x1f] else []

/-- The byte of index `j`, or 0 at the end. -/
def byteAt (data : List UInt8) (len j : ℕ) : UInt8 :=
  if j < len then data.getD (2 + j) 0 else 0

/-- The byte before the one of index `j`, or 0 at the start. -/
def byteBefore (data : List UInt8) (len : ℕ) : ℕ → UInt8
  | 0 => 0
  | j + 1 => byteAt data len j

theorem dataStep_eq
    (data : List UInt8) (len : ℕ) (s : UInt8 × Encoder) (j : ℕ) :
    dataStep data len s j =
      (emits s.2 (stepDigits s.1.toNat (byteAt data len j).toNat len j)).map
        (fun e => (byteAt data len j, e)) := by
  rw [dataStep, stepDigits, emits_append, byteAt]
  obtain ⟨x, hx⟩ : ∃ x, j % 5 * 8 - j % 5 * 8 / 5 * 5 = x := ⟨_, rfl⟩
  obtain ⟨b, hb⟩ : ∃ b, (if j < len then data.getD (2 + j) 0 else 0) = b := ⟨_, rfl⟩
  simp only [hx, hb]
  by_cases h₁ : j < len ∨ j % 5 > 0
  · by_cases h₂ : x ≥ 2 ∧ j < len
    · rw [if_pos h₁, if_pos h₁]
      simp only [if_pos h₂, if_pos h₂.1, emits_singleton]
      cases emit s.2 (((s.1.toNat <<< (5 - x)) ||| (b.toNat >>> (3 + x))) &&& 0x1f) <;> rfl
    · rw [if_pos h₁, if_pos h₁]
      simp only [if_neg h₂, emits_singleton]
      cases emit s.2 (((s.1.toNat <<< (5 - x)) ||| (b.toNat >>> (3 + x))) &&& 0x1f) <;> rfl
  · have h₂ : ¬(x ≥ 2 ∧ j < len) := fun h => h₁ (.inl h.2)
    rw [if_neg h₁, if_neg h₁]
    simp only [if_neg h₂]
    rfl

/-- The digits of the first passes of the loop over the program. -/
def rangeDigits (data : List UInt8) (len n : ℕ) : List ℕ :=
  (List.range n).flatMap
    (fun j => stepDigits (byteBefore data len j).toNat (byteAt data len j).toNat len j)

theorem dataLoop_eq
    (data : List UInt8) (len n : ℕ) (e : Encoder) :
    (List.range n).foldlM (dataStep data len) (0, e) =
      (emits e (rangeDigits data len n)).map (fun e => (byteBefore data len n, e)) := by
  induction n with
  | zero =>
      rfl
  | succ n ih =>
      have hsucc : rangeDigits data len (n + 1) = rangeDigits data len n ++
          stepDigits (byteBefore data len n).toNat (byteAt data len n).toNat len n := by
        rw [rangeDigits, List.range_succ, List.flatMap_append, List.flatMap_singleton]
        rfl
      rw [List.range_succ, List.foldlM_append, ih, hsucc, emits_append]
      cases hrange : emits e (rangeDigits data len n) with
      | error stop =>
          rfl
      | ok e' =>
          calc (List.foldlM (dataStep data len) (byteBefore data len n, e') [n])
              = dataStep data len (byteBefore data len n, e') n := bind_pure _
            _ = _ := dataStep_eq data len _ n

/-! ## Bytes regrouped to digits -/

theorem shift_eq
    (j : ℕ) :
    j % 5 * 8 - j % 5 * 8 / 5 * 5 = 8 * j % 5 := by
  omega

/-- A digit of the low bits of a byte and the high bits of the next one. -/
theorem join_eq
    {b x : ℕ}
    (hb : b < 256)
    (hx : x ≤ 5) (a : ℕ) :
    ((a <<< (5 - x)) ||| (b >>> (3 + x))) &&& 0x1f =
      (a * 2 ^ (5 - x) + b / 2 ^ (3 + x)) % 32 := by
  have hlt : b / 2 ^ (3 + x) < 2 ^ (5 - x) := by
    rw [Nat.div_lt_iff_lt_mul (Nat.two_pow_pos _), ← pow_add]
    rwa [show 5 - x + (3 + x) = 8 by omega]
  rw [Nat.shiftRight_eq_div_pow, ← Nat.shiftLeft_add_eq_or_of_lt hlt, Nat.shiftLeft_eq]
  exact Nat.and_two_pow_sub_one_eq_mod _ 5

theorem low_eq
    (b x : ℕ) :
    (b >>> (x - 2)) &&& 0x1f = b / 2 ^ (x - 2) % 32 := by
  rw [Nat.shiftRight_eq_div_pow]
  exact Nat.and_two_pow_sub_one_eq_mod _ 5

theorem join_quotient
    {v b x : ℕ}
    (hb : b < 256)
    (hx : x < 5) :
    32 * (v / 2 ^ x) + (v % 256 * 2 ^ (5 - x) + b / 2 ^ (3 + x)) % 32 =
      (256 * v + b) / 2 ^ (x + 3) := by
  interval_cases x <;> norm_num <;> omega

theorem low_quotient
    {v b x : ℕ}
    (hx : 2 ≤ x)
    (hx' : x < 5) :
    32 * ((256 * v + b) / 2 ^ (x + 3)) + b / 2 ^ (x - 2) % 32 = (256 * v + b) / 2 ^ (x - 2) := by
  interval_cases x <;> norm_num <;> omega

/-- A pass of the loop extends the numeral by the bits of the byte. -/
theorem digits_stepDigits
    {v b len j : ℕ}
    (hb : b < 256)
    (hj : j < len) :
    digits 32 (v / 2 ^ (8 * j % 5)) (8 * j / 5) ++ stepDigits (v % 256) b len j =
      digits 32 ((256 * v + b) / 2 ^ (8 * (j + 1) % 5)) (8 * (j + 1) / 5) := by
  obtain ⟨x, hx⟩ : ∃ x, 8 * j % 5 = x := ⟨_, rfl⟩
  have hx5 : x < 5 := by omega
  rw [stepDigits, shift_eq, hx]
  rw [if_pos (.inl hj), join_eq hb hx5.le, ← List.append_assoc,
    Digits.digits_append_singleton (Nat.mod_lt _ (by omega)), join_quotient hb hx5]
  by_cases h2 : 2 ≤ x
  · rw [if_pos ⟨h2, hj⟩, low_eq, Digits.digits_append_singleton (Nat.mod_lt _ (by omega)),
      low_quotient h2 hx5, show 8 * (j + 1) % 5 = x - 2 by omega,
      show 8 * (j + 1) / 5 = 8 * j / 5 + 1 + 1 by omega]
  · rw [if_neg (fun h => h2 h.1), List.append_nil, show 8 * (j + 1) % 5 = x + 3 by omega,
      show 8 * (j + 1) / 5 = 8 * j / 5 + 1 by omega]

/-- The last pass pads the bits left over with zeros. -/
theorem digits_stepDigits_last
    (v len : ℕ) :
    digits 32 (v / 2 ^ (8 * len % 5)) (8 * len / 5) ++ stepDigits (v % 256) 0 len len =
      digits 32 (v * 2 ^ ((5 - 8 * len % 5) % 5)) ((8 * len + 4) / 5) := by
  obtain ⟨x, hx⟩ : ∃ x, 8 * len % 5 = x := ⟨_, rfl⟩
  have hx5 : x < 5 := by omega
  rw [stepDigits, shift_eq, hx]
  rw [if_neg (fun h : x ≥ 2 ∧ len < len => absurd h.2 (lt_irrefl len)), List.append_nil]
  by_cases h0 : x = 0
  · rw [if_neg (by omega), List.append_nil, h0, pow_zero, Nat.div_one]
    rw [Nat.mul_one, show (8 * len + 4) / 5 = 8 * len / 5 by omega]
  · rw [if_pos (by omega), join_eq (by omega) hx5.le,
      Digits.digits_append_singleton (Nat.mod_lt _ (by omega)),
      show (8 * len + 4) / 5 = 8 * len / 5 + 1 by omega]
    congr 1
    interval_cases x <;> norm_num <;> omega

theorem value_take_succ
    {program : List UInt8} {j : ℕ}
    (hj : j < program.length) :
    value 256 (Base58.byteDigits (program.take (j + 1))) =
      256 * value 256 (Base58.byteDigits (program.take j)) + (program.getD j 0).toNat := by
  rw [List.take_succ_eq_append_getElem hj, Base58.byteDigits, List.map_append,
    Digits.value_append, List.map_singleton, Digits.value_singleton, List.length_singleton,
    pow_one, ← List.getD_eq_getElem _ 0 hj, Nat.mul_comm]
  rfl

theorem byteAt_eq
    {program : List UInt8} (op l : UInt8) {j : ℕ}
    (hj : j < program.length) :
    byteAt (op :: l :: program) program.length j = program.getD j 0 := by
  rw [byteAt, if_pos hj, Nat.add_comm, List.getD_cons_succ, List.getD_cons_succ]

theorem byteBefore_eq
    {program : List UInt8} (op l : UInt8) {j : ℕ}
    (hj : j ≤ program.length) :
    (byteBefore (op :: l :: program) program.length j).toNat =
      value 256 (Base58.byteDigits (program.take j)) % 256 := by
  cases j with
  | zero =>
      rfl
  | succ j =>
      rw [byteBefore, byteAt_eq op l hj, value_take_succ hj, Nat.mul_add_mod,
        Nat.mod_eq_of_lt (UInt8.toNat_lt _)]

theorem rangeDigits_succ
    (data : List UInt8) (len n : ℕ) :
    rangeDigits data len (n + 1) = rangeDigits data len n ++
      stepDigits (byteBefore data len n).toNat (byteAt data len n).toNat len n := by
  rw [rangeDigits, List.range_succ, List.flatMap_append, List.flatMap_singleton]
  rfl

/-- The digits written for the first bytes are those of their numeral, without
the bits that do not fill a digit. -/
theorem rangeDigits_eq
    {program : List UInt8} (op l : UInt8) {j : ℕ}
    (hj : j ≤ program.length) :
    rangeDigits (op :: l :: program) program.length j =
      digits 32 (value 256 (Base58.byteDigits (program.take j)) / 2 ^ (8 * j % 5)) (8 * j / 5) := by
  induction j with
  | zero =>
      rfl
  | succ j ih =>
      rw [rangeDigits_succ, ih (by omega), byteBefore_eq op l (by omega), byteAt_eq op l hj,
        digits_stepDigits (UInt8.toNat_lt _) hj, value_take_succ hj]

/-- The digits of a program: its numeral, padded to whole digits. -/
def programDigits (program : List UInt8) : List ℕ :=
  digits 32 (value 256 (Base58.byteDigits program) * 2 ^ ((5 - 8 * program.length % 5) % 5))
    ((8 * program.length + 4) / 5)

theorem rangeDigits_length
    (op l : UInt8) (program : List UInt8) :
    rangeDigits (op :: l :: program) program.length (program.length + 1) =
      programDigits program := by
  have hlast : byteAt (op :: l :: program) program.length program.length = 0 :=
    if_neg (lt_irrefl _)
  rw [rangeDigits_succ, rangeDigits_eq op l le_rfl, byteBefore_eq op l le_rfl, hlast,
    List.take_length]
  exact digits_stepDigits_last _ _

/-! ## The string of an encoding -/

/-- The digits after the separator, with the checksum. -/
def payload (hrp : List UInt8) (ver : ℕ) (program : List UInt8) : List ℕ :=
  let l := ver :: programDigits program
  l ++ checkDigits (LinearChecksum.run polymod (hrpChk hrp) l)

/-- The string for some digits. -/
def address (hrp : List UInt8) (l : List ℕ) : List UInt8 :=
  hrp ++ 0x31 :: text l

/-- A character that the first loop of `BRBech32Encode` accepts. -/
def hrpChar (c : UInt8) : Prop :=
  33 ≤ c ∧ c ≤ 126 ∧ isupper c = false

theorem hrpLoop_eq
    {hrp : List UInt8}
    (hhrp : ∀ c ∈ hrp, hrpChar c) (e : Encoder)
    (hlen : e.addr.length + hrp.length ≤ 84) :
    hrpLoop e hrp = .ok ⟨e.addr ++ hrp,
      hrp.foldl (fun chk (c : UInt8) => polymod chk ^^^ (c >>> 5).toUInt32) e.chk⟩ := by
  induction hrp generalizing e with
  | nil =>
      rw [hrpLoop, List.append_nil]
      rfl
  | cons c hrp ih =>
      obtain ⟨h33, h126, hupper⟩ := hhrp c (by simp)
      rw [List.length_cons] at hlen
      rw [hrpLoop, if_neg, put, if_pos (show e.addr.length < 91 by omega)]
      · refine (ih (fun c hc => hhrp c (List.mem_cons_of_mem _ hc)) _ ?_).trans ?_
        · simp only [List.length_append, List.length_singleton]
          omega
        · rw [List.append_assoc]
          rfl
      · rintro (h | h | h | h)
        · omega
        · exact absurd h33 (UInt8.not_le.mpr h)
        · exact absurd h126 (UInt8.not_le.mpr h)
        · rw [hupper] at h
          exact Bool.noConfusion h

theorem hrpLoop_zero
    {hrp : List UInt8}
    (hhrp : ¬∀ c ∈ hrp, hrpChar c) (e : Encoder)
    (hlen : e.addr.length + hrp.length ≤ 84) :
    hrpLoop e hrp = .error .zero := by
  induction hrp generalizing e with
  | nil =>
      exact absurd (fun c hc => absurd hc List.not_mem_nil) hhrp
  | cons c hrp ih =>
      rw [List.length_cons] at hlen
      rw [hrpLoop]
      by_cases hbad : e.addr.length > 83 ∨ c < 33 ∨ c > 126 ∨ isupper c = true
      · rw [if_pos hbad]
      · rw [if_neg hbad, put, if_pos (show e.addr.length < 91 by omega)]
        have hgood : hrpChar c := by
          simp only [not_or, Bool.not_eq_true] at hbad
          exact ⟨UInt8.not_lt.mp hbad.2.1, UInt8.not_lt.mp hbad.2.2.1, hbad.2.2.2⟩
        refine ih (fun hrest => hhrp ?_) _ ?_
        · intro d hd
          rcases List.mem_cons.mp hd with rfl | hd
          · exact hgood
          · exact hrest d hd
        · simp only [List.length_append, List.length_singleton]
          omega

/-- Characters written in a row without the checksum. -/
theorem puts_eq
    (f : UInt32 → ℕ → UInt8) (l : List ℕ) (e : Encoder) (h : e.addr.length ≤ 91) :
    l.foldlM (fun e j => put e (f e.chk j)) e =
      if e.addr.length + l.length ≤ 91 then
        .ok ⟨e.addr ++ l.map (f e.chk), e.chk⟩
      else .error .overrun := by
  induction l generalizing e with
  | nil =>
      rw [if_pos (by simpa using h), List.map_nil, List.append_nil]
      rfl
  | cons j l ih =>
      rw [List.foldlM_cons, put]
      by_cases hlt : e.addr.length < 91
      · have hrec := ih { e with addr := e.addr ++ [f e.chk j] } (by simpa using hlt)
        rw [if_pos hlt]
        refine hrec.trans ?_
        simp only [List.length_append, List.length_cons, List.length_nil, List.map_cons,
          List.append_assoc, List.singleton_append]
        congr 1
        simp only [eq_iff_iff]
        omega
      · rw [if_neg hlt, if_neg (by rw [List.length_cons]; omega)]
        rfl

theorem checkLoop_eq
    (e : Encoder) (h : e.addr.length ≤ 91) :
    checkLoop e =
      if e.addr.length + 6 ≤ 91 then
        .ok ⟨e.addr ++ text (digits 32 e.chk.toNat 6), e.chk⟩
      else .error .overrun := by
  have hputs := puts_eq (fun chk j => chars.getD (((chk >>> UInt32.ofNat ((5 - j) * 5)) &&&
    0x1f).toNat) 0) (List.range 6) e h
  rw [List.length_range] at hputs
  rw [checkLoop, hputs]
  have hmap : (List.range 6).map (fun j =>
      chars.getD (((e.chk >>> UInt32.ofNat ((5 - j) * 5)) &&& 0x1f).toNat) 0) =
        text (digits 32 e.chk.toNat 6) := by
    rw [text, digits, List.map_map]
    refine List.map_congr_left (fun j hj => ?_)
    have hj6 := List.mem_range.mp hj
    have hlt : (5 - j) * 5 < 32 := by omega
    have hand : ((e.chk >>> UInt32.ofNat ((5 - j) * 5)) &&& 0x1f).toNat =
        e.chk.toNat / 32 ^ (6 - (j + 1)) % 32 := by
      rw [UInt32.toNat_and, UInt32.toNat_shiftRight, UInt32.toNat_ofNat_of_lt' (by
        exact lt_trans hlt (by decide)), Nat.mod_eq_of_lt hlt, Nat.shiftRight_eq_div_pow,
        show (5 - j) * 5 = 5 * (6 - (j + 1)) by omega, pow_mul]
      exact Nat.and_two_pow_sub_one_eq_mod _ 5
    rw [hand]
    rfl
  rw [hmap]

/-- A version that stands for itself. -/
def IsVersionOp (op : UInt8) : Prop :=
  op = OP_0 ∨ (OP_1 ≤ op ∧ op ≤ 0x60)

instance (op : UInt8) : Decidable (IsVersionOp op) :=
  inferInstanceAs (Decidable (op = OP_0 ∨ (OP_1 ≤ op ∧ op ≤ 0x60)))

/-- `ver` of `BRBech32Encode`. -/
def opVersion (op : UInt8) : UInt8 :=
  if op ≥ OP_1 then op + 1 - OP_1 else 0

/-- `data42[0]` of `BRBech32Decode`. -/
def versionOp (ver : ℕ) : UInt8 :=
  if ver = 0 then OP_0 else UInt8.ofNat ver + OP_1 - 1

theorem isVersionOp_spec
    {op : UInt8} :
    IsVersionOp op → ¬(op > OP_0 ∧ op < OP_1) ∧ ¬(opVersion op > 16) ∧
      versionOp (opVersion op).toNat = op := by
  refine forall_byte (P := fun op => IsVersionOp op → ¬(op > OP_0 ∧ op < OP_1) ∧
    ¬(opVersion op > 16) ∧ versionOp (opVersion op).toNat = op) ?_ op
  decide +kernel

theorem tolower_hrpChar
    {c : UInt8}
    (hc : hrpChar c) :
    tolower c = c := by
  rw [tolower, hc.2.2]
  rfl

theorem hrpChk_eq
    {hrp : List UInt8}
    (hhrp : ∀ c ∈ hrp, hrpChar c) :
    hrp.foldl (fun chk c => polymod chk ^^^ (c &&& 0x1f).toUInt32)
        (polymod (hrp.foldl (fun chk (c : UInt8) => polymod chk ^^^ (c >>> 5).toUInt32) 1)) =
      hrpChk hrp := by
  have hhigh : hrp.foldl (fun chk (c : UInt8) => polymod chk ^^^ (c >>> 5).toUInt32) 1 =
      hrp.foldl (fun chk c => polymod chk ^^^ (tolower c >>> 5).toUInt32) 1 := by
    refine List.foldl_ext _ _ 1 (fun chk c hc => ?_)
    rw [tolower_hrpChar (hhrp c hc)]
  rw [hrpChk, hhigh]

theorem length_programDigits
    (program : List UInt8) :
    (programDigits program).length = (8 * program.length + 4) / 5 := by
  rw [programDigits, Digits.length_digits]

/-- The version and the loop over the program write the digits of the program. -/
theorem programLoop_eq
    (op : UInt8) (program : List UInt8) (e : Encoder) :
    (emit e (opVersion op).toNat >>= fun e =>
      (List.range (program.length + 1)).foldlM
        (dataStep (op :: UInt8.ofNat program.length :: program) program.length) (0, e)) =
      (emits e ((opVersion op).toNat :: programDigits program)).map (fun e =>
        (byteBefore (op :: UInt8.ofNat program.length :: program) program.length
          (program.length + 1), e)) := by
  rw [← rangeDigits_length op (UInt8.ofNat program.length) program,
    ← List.singleton_append (l := rangeDigits _ _ _), emits_append, emits_singleton]
  cases emit e (opVersion op).toNat with
  | error stop =>
      rfl
  | ok e' =>
      exact dataLoop_eq _ _ _ e'

/-- The string, or a write past its end. -/
theorem BRBech32Encode_eq
    {hrp program : List UInt8} {op : UInt8}
    (hhrp : ∀ c ∈ hrp, hrpChar c)
    (hop : IsVersionOp op)
    (hlen : 2 ≤ program.length)
    (hlen' : program.length ≤ 40)
    (hroom : hrp.length + program.length ≤ 82) :
    BRBech32Encode hrp (op :: UInt8.ofNat program.length :: program) =
      if hrp.length + (8 * program.length + 4) / 5 ≤ 82 then
        .ok (address hrp (payload hrp (opVersion op).toNat program) ++ [0])
      else .error .overrun := by
  obtain ⟨hop₁, hop₂, -⟩ := isVersionOp_spec hop
  have hbyte : (UInt8.ofNat program.length).toNat = program.length :=
    UInt8.toNat_ofNat_of_lt' (by exact lt_of_le_of_lt hlen' (by decide))
  obtain ⟨e, he⟩ : ∃ e : Encoder, e = ⟨hrp ++ [0x31], hrpChk hrp⟩ := ⟨_, rfl⟩
  have hloop := programLoop_eq op program e
  have helen : e.addr.length = hrp.length + 1 := by
    rw [he, List.length_append, List.length_singleton]
  have hdigits : ((opVersion op).toNat :: programDigits program).length =
      (8 * program.length + 4) / 5 + 1 := by
    rw [List.length_cons, length_programDigits]
  rw [emits_eq e _ (by omega), helen, hdigits] at hloop
  rw [BRBech32Encode, hrpLoop_eq hhrp _ (by rw [List.length_nil]; omega)]
  have hput : put ⟨hrp, hrpChk hrp⟩ 0x31 = .ok e := by
    rw [put, if_pos (show hrp.length < 91 by omega), he]
  have hver : (if op ≥ OP_1 then op + 1 - OP_1 else 0) = opVersion op := rfl
  simp only [bind, Except.bind] at hloop
  simp only [List.nil_append, bind, Except.bind, hrpChk_eq hhrp, hput, List.getD_cons_zero,
    List.getD_cons_succ, hbyte, hver]
  have hguard₁ : ¬(e.addr.length < 1 ∨ (op > OP_0 ∧ op < OP_1)) := by
    rintro (h | h)
    · omega
    · exact hop₁ h
  have hguard₂ : ¬(opVersion op > 16 ∨ program.length < 2 ∨ program.length > 40 ∨
      e.addr.length + 1 + program.length + 6 ≥ 91) := by
    rintro (h | h | h | h)
    · exact hop₂ h
    all_goals omega
  rw [if_neg hguard₁, if_neg hguard₂]
  obtain ⟨n, hn⟩ : ∃ n, (8 * program.length + 4) / 5 = n := ⟨_, rfl⟩
  rw [hn] at hloop hdigits
  rw [hn]
  by_cases hfit : hrp.length + 1 + (n + 1) ≤ 91
  · rw [if_pos hfit] at hloop
    obtain ⟨e₁, hemit⟩ : ∃ e₁, emit e (opVersion op).toNat = .ok e₁ := by
      cases hemit : emit e (opVersion op).toNat with
      | error stop =>
          rw [hemit] at hloop
          exact absurd hloop (by simp [Except.map])
      | ok e₁ =>
          exact ⟨e₁, rfl⟩
    simp only [hemit] at hloop ⊢
    simp only [hloop, Except.map]
    obtain ⟨chk, hchk⟩ : ∃ chk, LinearChecksum.run polymod e.chk
        ((opVersion op).toNat :: programDigits program) = chk := ⟨_, rfl⟩
    have hlen₂ : (e.addr ++ text ((opVersion op).toNat :: programDigits program)).length =
        hrp.length + 1 + (n + 1) := by
      rw [List.length_append, text, List.length_map, hdigits, helen]
    rw [hchk, checkLoop_eq _ (by rw [hlen₂]; exact hfit), hlen₂]
    have hpayload : address hrp (payload hrp (opVersion op).toNat program) =
        e.addr ++ text ((opVersion op).toNat :: programDigits program) ++
          text (digits 32 (polymod^[6] chk ^^^ 1).toNat 6) := by
      rw [address, payload, ← hchk, he, checkDigits, text, List.map_append, ← text, ← text,
        List.append_assoc, List.append_assoc, List.singleton_append]
    by_cases hsix : hrp.length + 1 + (n + 1) + 6 ≤ 91
    · rw [if_pos hsix]
      have hlen₃ : (address hrp (payload hrp (opVersion op).toNat program)).length =
          hrp.length + 1 + (n + 1) + 6 := by
        rw [hpayload, List.length_append, hlen₂, text, List.length_map, Digits.length_digits]
      simp only [put, ← hpayload, hlen₃]
      by_cases hall : hrp.length + n ≤ 82
      · rw [if_pos (by omega), if_pos hall]
        rfl
      · rw [if_neg (by omega), if_neg hall]
    · rw [if_neg hsix, if_neg (by omega)]
  · rw [if_neg hfit] at hloop
    rw [if_neg (by omega)]
    cases hemit : emit e (opVersion op).toNat with
    | error stop =>
        simp only [hemit, Except.map] at hloop
        cases hloop
        rfl
    | ok e₁ =>
        simp only [hemit, Except.map] at hloop ⊢
        rw [hloop]

theorem BRBech32Encode_refused
    {hrp data : List UInt8}
    (hhrp : ¬∀ c ∈ hrp, hrpChar c)
    (hlen : hrp.length ≤ 84) :
    BRBech32Encode hrp data = .error .zero := by
  rw [BRBech32Encode, hrpLoop_zero hhrp _ (by rw [List.length_nil]; omega)]
  rfl

theorem BRBech32Encode_long
    {hrp program : List UInt8} {op : UInt8}
    (hhrp : ∀ c ∈ hrp, hrpChar c)
    (hlen : hrp.length ≤ 83)
    (hlen' : program.length ≤ 40)
    (hlong : 82 < hrp.length + program.length) :
    BRBech32Encode hrp (op :: UInt8.ofNat program.length :: program) = .error .zero := by
  have hbyte : (UInt8.ofNat program.length).toNat = program.length :=
    UInt8.toNat_ofNat_of_lt' (by exact lt_of_le_of_lt hlen' (by decide))
  have hput : put ⟨hrp, hrpChk hrp⟩ 0x31 = .ok ⟨hrp ++ [0x31], hrpChk hrp⟩ := by
    rw [put, if_pos (show hrp.length < 91 by omega)]
  rw [BRBech32Encode, hrpLoop_eq hhrp _ (by rw [List.length_nil]; omega)]
  simp only [List.nil_append, bind, Except.bind, hrpChk_eq hhrp, hput, List.getD_cons_zero,
    List.getD_cons_succ, hbyte, List.length_append, List.length_singleton]
  by_cases hop : hrp.length + 1 < 1 ∨ (op > OP_0 ∧ op < OP_1)
  · rw [if_pos hop]
  · rw [if_neg hop, if_pos (.inr (.inr (.inr (by omega))))]

end Bech32

end BreadwalletCore
