import BreadwalletCore.Data.BlockPadding
import BreadwalletCore.Data.Machine

/-!
# Hash functions

`BRSHA1`, `BRSHA224`, `BRSHA256`, `BRSHA384`, `BRSHA512`, `BRRMD160` and `BRMD5` of
`BRCrypto.c` on a little endian machine with a `size_t` of 64 bits, for compression
functions that are given.

* A result is the digest with the blocks that were compressed, in order.
* `HashLoop` is what the functions differ in.
-/

namespace BreadwalletCore

open Segment (slice)
open BlockPadding LittleEndian

/-- A read outside of the data, or a write outside of an array. -/
inductive CryptoFault
  | invalidRead
  | invalidWrite
deriving DecidableEq

/-- `memcpy` from the data. -/
def peek (data : List UInt8) (off n : ℕ) : Except CryptoFault (List UInt8) :=
  if off + n ≤ data.length then .ok (slice data off n) else .error .invalidRead

/-- Bytes written at an offset of an array of `cap` bytes. -/
def poke (cap : ℕ) (x : List UInt8) (off : ℕ) (l : List UInt8) :
    Except CryptoFault (List UInt8) :=
  if off + l.length ≤ cap then .ok (x.take off ++ l ++ x.drop (off + l.length))
  else .error .invalidWrite

/-- A difference of two `size_t`. -/
def sizeSub (a b : ℕ) : ℕ :=
  (a + 2 ^ 64 - b) % 2 ^ 64

/-- What the functions differ in.  `x` has `cap` bytes, of which a block takes `size`;
the length goes to `limit`. -/
structure HashLoop (σ : Type) where
  size : ℕ
  cap : ℕ
  limit : ℕ
  /-- the loop runs for `i <= len` -/
  inclusive : Bool
  /-- what is written for a length -/
  field : ℕ → List UInt8
  compress : σ → List UInt8 → σ
  /-- what the compression leaves in `x` -/
  leaves : σ → List UInt8 → List UInt8
  size_pos : 0 < size
  size_le : size ≤ cap
  cap_lt : cap < 2 ^ 64
  field_end : ∀ n, limit + (field n).length = size

/-- `buf` and `x`, and the blocks compressed so far. -/
structure HashRun (σ : Type) where
  buf : σ
  x : List UInt8 := []
  calls : List (List UInt8) := []

section Loop

variable {σ : Type} (h : HashLoop σ)

/-- A call of the compression function. -/
def HashRun.compress (r : HashRun σ) : HashRun σ where
  buf := h.compress r.buf (r.x.take h.size)
  x := h.leaves r.buf r.x
  calls := r.calls ++ [r.x.take h.size]

/-- Whether the loop goes on. -/
def HashLoop.runs (i len : ℕ) : Prop :=
  i < len ∨ h.inclusive = true ∧ i = len

instance (i len : ℕ) : Decidable (h.runs i len) :=
  inferInstanceAs (Decidable (_ ∨ _))

/-- The loop over the blocks of the data, with `i` behind it. -/
def processBlocks (data : List UInt8) (i : ℕ) (r : HashRun σ) :
    Except CryptoFault (ℕ × HashRun σ) :=
  if _hruns : h.runs i data.length then do
    let part ← peek data i (if i + h.size < data.length then h.size else data.length - i)
    let x ← poke h.cap r.x 0 part
    if i + h.size > data.length then .ok (i, { r with x := x })
    else processBlocks data (i + h.size) ({ r with x := x }.compress h)
  else .ok (i, r)
termination_by data.length + 1 - i
decreasing_by
  have hpos := h.size_pos
  have hle : i ≤ data.length := _hruns.elim Nat.le_of_lt (fun heq => heq.2.le)
  omega

/-- The padding behind the loop. -/
def appendPadding (len i : ℕ) (r : HashRun σ) : Except CryptoFault (HashRun σ) := do
  let rest := sizeSub len i
  let x ← poke h.cap r.x rest (List.replicate (sizeSub h.size rest) 0)
  let x ← poke h.cap x rest [0x80]
  let r := { r with x := x }
  let r ← (if rest ≥ h.limit then do
      let r := r.compress h
      let x ← poke h.cap r.x 0 (List.replicate h.size 0)
      .ok { r with x := x }
    else .ok r : Except CryptoFault (HashRun σ))
  let x ← poke h.cap r.x h.limit (h.field len)
  .ok ({ r with x := x }.compress h)

/-- A hash function up to the words of its digest. -/
def hashBlocks (init : σ) (data : List UInt8) : Except CryptoFault (HashRun σ) := do
  let (i, r) ← processBlocks h data 0 { buf := init }
  appendPadding h data.length i r

/-! ## The blocks -/

variable {h}

theorem peek_eq
    {data : List UInt8} {off n : ℕ}
    (hend : off + n ≤ data.length) :
    peek data off n = .ok (slice data off n) := by
  rw [peek, if_pos hend]

theorem poke_eq
    {cap off : ℕ} {x l : List UInt8}
    (hend : off + l.length ≤ cap) :
    poke cap x off l = .ok (x.take off ++ l ++ x.drop (off + l.length)) := by
  rw [poke, if_pos hend]

theorem sizeSub_eq
    {a b : ℕ}
    (hle : b ≤ a)
    (ha : a < 2 ^ 64) :
    sizeSub a b = a - b := by
  rw [sizeSub]
  omega

/-- A turn of the loop on a block that is not complete. -/
theorem processBlocks_short
    {front tail : List UInt8} {r : HashRun σ}
    (htail : tail.length < h.size) :
    ∃ r', processBlocks h (front ++ tail) front.length r = .ok (front.length, r') ∧
      r'.buf = r.buf ∧ r'.calls = r.calls ∧ r'.x.take tail.length = tail := by
  have hcap := h.size_le
  have hlen : (front ++ tail).length = front.length + tail.length := List.length_append
  rw [processBlocks]
  by_cases hruns : h.runs front.length (front ++ tail).length
  · rw [dif_pos hruns, if_neg (by omega), hlen, Nat.add_sub_cancel_left, peek_eq (by omega),
      Machine.ok_bind, slice, List.drop_left, List.take_length, poke_eq (by omega),
      Machine.ok_bind, if_pos (by omega)]
    refine ⟨_, rfl, rfl, rfl, ?_⟩
    rw [List.take_zero, List.nil_append, List.take_left]
  · have hnil : tail = [] := by
      rw [← List.length_eq_zero_iff]
      by_contra hne
      exact hruns (.inl (by omega))
    rw [dif_neg hruns]
    refine ⟨r, rfl, rfl, rfl, ?_⟩
    rw [hnil]
    rfl

/-- A turn of the loop on a whole block. -/
theorem processBlocks_whole
    {front b rest : List UInt8} {r : HashRun σ}
    (hb : b.length = h.size) :
    ∃ r', processBlocks h (front ++ (b ++ rest)) front.length r =
        processBlocks h ((front ++ b) ++ rest) (front ++ b).length r' ∧
      r'.buf = h.compress r.buf b ∧ r'.calls = r.calls ++ [b] := by
  have hpos := h.size_pos
  have hcap := h.size_le
  have hlen : (front ++ (b ++ rest)).length = front.length + (h.size + rest.length) := by
    rw [List.length_append, List.length_append, hb]
  have hcount : (if front.length + h.size < (front ++ (b ++ rest)).length then h.size
      else (front ++ (b ++ rest)).length - front.length) = h.size := by
    split_ifs <;> omega
  have hnext : (front ++ b).length = front.length + h.size := by
    rw [List.length_append, hb]
  have hx : (List.take 0 r.x ++ b ++ List.drop (0 + b.length) r.x).take h.size = b := by
    rw [List.take_zero, List.nil_append, List.take_left' hb]
  rw [processBlocks, dif_pos (.inl (by omega)), hcount, peek_eq (by omega), Machine.ok_bind, slice,
    List.drop_left, List.take_left' hb, poke_eq (by omega), Machine.ok_bind, if_neg (by omega),
    List.append_assoc front b rest, hnext]
  refine ⟨_, rfl, ?_, ?_⟩
  · rw [HashRun.compress, hx]
  · rw [HashRun.compress, hx]

/-- The loop compresses the whole blocks, and leaves the rest of the data in `x`. -/
theorem processBlocks_eq
    {front rest : List UInt8} {r : HashRun σ} :
    ∃ body tail r', rest = body ++ tail ∧ tail.length < h.size ∧ h.size ∣ body.length ∧
      processBlocks h (front ++ rest) front.length r = .ok ((front ++ body).length, r') ∧
      r'.buf = (blocks h.size body).foldl h.compress r.buf ∧
      r'.calls = r.calls ++ blocks h.size body ∧ r'.x.take tail.length = tail := by
  induction hn : rest.length using Nat.strong_induction_on generalizing front rest r with
  | _ n ih =>
      subst hn
      have hpos := h.size_pos
      by_cases hshort : rest.length < h.size
      · obtain ⟨r', hrun, hbuf, hcalls, hx⟩ := @processBlocks_short σ h front rest r hshort
        refine ⟨[], rest, r', rfl, hshort, Nat.dvd_zero _, ?_, ?_, ?_, hx⟩
        · rw [List.append_nil]
          exact hrun
        · rw [blocks_nil]
          exact hbuf
        · rw [blocks_nil, List.append_nil]
          exact hcalls
      · have hb : (rest.take h.size).length = h.size := by
          rw [List.length_take]
          omega
        have hless : (rest.drop h.size).length < rest.length := by
          rw [List.length_drop]
          omega
        obtain ⟨r₁, hstep, hbuf₁, hcalls₁⟩ :=
          @processBlocks_whole σ h front (rest.take h.size) (rest.drop h.size) r hb
        obtain ⟨body, tail, r', hsplit, htail, hdvd, hrun, hbuf, hcalls, hx⟩ :=
          @ih _ hless (front ++ rest.take h.size) (rest.drop h.size) r₁ rfl
        rw [List.take_append_drop] at hstep
        refine ⟨rest.take h.size ++ body, tail, r', ?_, htail, ?_, ?_, ?_, ?_, hx⟩
        · rw [List.append_assoc, ← hsplit, List.take_append_drop]
        · rw [List.length_append, hb]
          exact Nat.dvd_add (Nat.dvd_refl _) hdvd
        · rw [hstep, hrun, List.append_assoc]
        · rw [hbuf, hbuf₁, blocks_append hpos hb, List.foldl_cons]
        · rw [hcalls, hcalls₁, blocks_append hpos hb, List.append_assoc, List.singleton_append]

/-! ## The padding -/

/-- `x` behind the first two writes. -/
theorem closed_eq
    {tail x : List UInt8}
    (htail : tail.length < h.size)
    (hx : x.take tail.length = tail) :
    ∃ x₁ rest, poke h.cap x tail.length (List.replicate (h.size - tail.length) 0) = .ok x₁ ∧
      poke h.cap x₁ tail.length [0x80] = .ok (closed tail (h.size - tail.length - 1) ++ rest) := by
  have hcap := h.size_le
  obtain ⟨n, hn⟩ : ∃ n, h.size - tail.length = n + 1 := ⟨h.size - tail.length - 1, by omega⟩
  refine ⟨_, x.drop (tail.length + (h.size - tail.length)), poke_eq ?_, ?_⟩
  · rw [List.length_replicate]
    omega
  · rw [poke_eq (by rw [List.length_singleton]; omega), hx, hn, List.length_replicate,
      List.append_assoc tail, List.take_left, List.length_singleton, List.replicate_succ,
      List.drop_length_add_append, Nat.add_sub_cancel, closed, List.append_assoc, List.append_assoc]
    rfl

/-- A rest without room for the length is compressed. -/
theorem makeRoom_eq
    {tail rest : List UInt8} {r : HashRun σ}
    (htail : tail.length < h.size)
    (hx : r.x = closed tail (h.size - tail.length - 1) ++ rest) :
    ∃ r' front rest' done,
      (if tail.length ≥ h.limit then do
          let r := r.compress h
          let x ← poke h.cap r.x 0 (List.replicate h.size 0)
          .ok { r with x := x }
        else .ok r : Except CryptoFault (HashRun σ)) = .ok r' ∧
      front.length = h.limit ∧ r'.x = front ++ rest' ∧
      r'.buf = done.foldl h.compress r.buf ∧ r'.calls = r.calls ++ done ∧
      ∀ field : List UInt8, h.limit + field.length = h.size →
        blocks h.size (padded h.size field tail) = done ++ [front ++ field] := by
  have hpos := h.size_pos
  have hcap := h.size_le
  have hfull := h.field_end 0
  by_cases hroom : tail.length ≥ h.limit
  · -- the length goes to a block of its own
    have hwhole : (closed tail (h.size - tail.length - 1)).length = h.size := by
      rw [length_closed]
      omega
    obtain ⟨rest', hpoke⟩ : ∃ rest', poke h.cap (r.compress h).x 0 (List.replicate h.size 0) =
        .ok (List.replicate h.limit 0 ++ rest') := by
      rw [poke_eq (by rw [List.length_replicate]; omega), List.take_zero, List.nil_append, ← hfull,
        List.replicate_add, List.append_assoc]
      exact ⟨_, rfl⟩
    refine ⟨{ r.compress h with x := List.replicate h.limit 0 ++ rest' }, List.replicate h.limit 0,
      rest', [closed tail (h.size - tail.length - 1)], ?_, List.length_replicate, rfl, ?_, ?_,
      fun field hfield => ?_⟩
    · dsimp only
      rw [if_pos hroom, hpoke, Machine.ok_bind]
    · rw [HashRun.compress, hx, List.take_left' hwhole]
      rfl
    · rw [HashRun.compress, hx, List.take_left' hwhole]
    · rw [padded_of_le hfield hroom htail, blocks_append hpos hwhole, blocks_singleton hpos
        (by rw [List.length_append, List.length_replicate]; exact hfield)]
      rfl
  · have hfront : (closed tail (h.limit - tail.length - 1)).length = h.limit := by
      rw [length_closed]
      omega
    rw [show h.size - tail.length - 1 = h.limit - tail.length - 1 + (h.field 0).length by omega,
      closed_add_append] at hx
    refine ⟨r, _, _, [], if_neg hroom, hfront, hx, rfl, (List.append_nil _).symm,
      fun field hfield => ?_⟩
    rw [padded_of_lt hfield (by omega), blocks_singleton hpos
      (by rw [List.length_append, hfront]; exact hfield)]
    rfl

/-- The last block, which ends with the length. -/
theorem lastBlock_eq
    {front rest field : List UInt8}
    (hfield : h.limit + field.length = h.size)
    (hfront : front.length = h.limit) :
    ∃ x, poke h.cap (front ++ rest) h.limit field = .ok x ∧ x.take h.size = front ++ field := by
  have hcap := h.size_le
  refine ⟨_, poke_eq (by omega), ?_⟩
  rw [List.take_left' hfront, List.take_left' (by rw [List.length_append]; omega)]

/-- The padding of a rest that is no whole block. -/
theorem appendPadding_eq
    {body tail : List UInt8} {r : HashRun σ}
    (htail : tail.length < h.size)
    (hlen : (body ++ tail).length < 2 ^ 64)
    (hx : r.x.take tail.length = tail) :
    ∃ r', appendPadding h (body ++ tail).length body.length r = .ok r' ∧
      r'.buf = (blocks h.size (padded h.size (h.field (body ++ tail).length) tail)).foldl
        h.compress r.buf ∧
      r'.calls = r.calls ++ blocks h.size (padded h.size (h.field (body ++ tail).length) tail) := by
  have hcap := h.size_le
  have hcaplt := h.cap_lt
  have hfield := h.field_end (body ++ tail).length
  have hrest : sizeSub (body ++ tail).length body.length = tail.length := by
    rw [List.length_append] at hlen ⊢
    rw [sizeSub_eq (Nat.le_add_right _ _) hlen, Nat.add_sub_cancel_left]
  obtain ⟨x₁, rest, hfirst, hsecond⟩ := @closed_eq σ h tail r.x htail hx
  obtain ⟨r₁, front, rest₁, done, hroom, hfront, hx₁, hbuf, hcalls, hblocks⟩ :=
    @makeRoom_eq σ h tail rest { r with x := _ } htail rfl
  obtain ⟨x, hpoke, htake⟩ := @lastBlock_eq σ h front rest₁ _ hfield hfront
  rw [hblocks _ hfield, appendPadding, hrest, sizeSub_eq htail.le (by omega)]
  dsimp only
  rw [hfirst, Machine.ok_bind, hsecond, Machine.ok_bind, hroom, Machine.ok_bind, hx₁, hpoke,
    Machine.ok_bind]
  refine ⟨_, rfl, ?_, ?_⟩
  · rw [HashRun.compress, htake, hbuf, List.foldl_append]
    rfl
  · rw [HashRun.compress, htake, hcalls, List.append_assoc]

/-- The blocks of the padded data are compressed, one behind the other. -/
theorem hashBlocks_eq
    (init : σ) {data : List UInt8}
    (hlen : data.length < 2 ^ 64) :
    ∃ r, hashBlocks h init data = .ok r ∧
      r.buf = (blocks h.size (padded h.size (h.field data.length) data)).foldl h.compress init ∧
      r.calls = blocks h.size (padded h.size (h.field data.length) data) := by
  obtain ⟨body, tail, r₁, hsplit, htail, hdvd, hrun, hbuf₁, hcalls₁, hx⟩ :=
    @processBlocks_eq σ h [] data { buf := init }
  subst hsplit
  obtain ⟨r, hpadding, hbuf, hcalls⟩ := @appendPadding_eq σ h body tail r₁ htail hlen hx
  obtain ⟨k, hk⟩ := hdvd
  have hpadded : padded h.size (h.field (body ++ tail).length) (body ++ tail) =
      body ++ padded h.size (h.field (body ++ tail).length) tail := by
    have hfill : fill h.size ((body ++ tail).length + 1 + (h.field (body ++ tail).length).length) =
        fill h.size (tail.length + 1 + (h.field (body ++ tail).length).length) := by
      rw [fill, fill, List.length_append, hk, Nat.add_assoc, Nat.add_assoc, Nat.add_assoc,
        Nat.mul_add_mod]
    rw [padded, padded, hfill, List.append_assoc]
  refine ⟨r, ?_, ?_, ?_⟩
  · rw [List.nil_append, List.nil_append, List.length_nil] at hrun
    rw [hashBlocks, hrun, Machine.ok_bind]
    exact hpadding
  · rw [hpadded, blocks_append_mul h.size_pos hk, List.foldl_append, hbuf, hbuf₁]
  · rw [hpadded, blocks_append_mul h.size_pos hk, hcalls, hcalls₁, List.nil_append]

end Loop

/-! ## The functions -/

/-- The compression functions.  That of SHA-1 works in `x`. -/
structure Compressions where
  sha1 : Vector UInt32 5 → List UInt8 → Vector UInt32 5
  sha1Leaves : Vector UInt32 5 → List UInt8 → List UInt8
  sha256 : Vector UInt32 8 → List UInt8 → Vector UInt32 8
  sha512 : Vector UInt64 8 → List UInt8 → Vector UInt64 8
  rmd : Vector UInt32 5 → List UInt8 → Vector UInt32 5
  md5 : Vector UInt32 4 → List UInt8 → Vector UInt32 4

/-- `x[14] = be32((uint32_t)(len >> 29)), x[15] = be32((uint32_t)(len << 3))` -/
def lengthBE32 (len : ℕ) : List UInt8 :=
  reversed 4 (len / 2 ^ 29 % 2 ^ 32) ++ reversed 4 (len * 8 % 2 ^ 64 % 2 ^ 32)

/-- `x[14] = le32((uint32_t)(len << 3)), x[15] = le32((uint32_t)(len >> 29))` -/
def lengthLE32 (len : ℕ) : List UInt8 :=
  LittleEndian.bytes 4 (len * 8 % 2 ^ 64 % 2 ^ 32) ++ LittleEndian.bytes 4 (len / 2 ^ 29 % 2 ^ 32)

/-- `x[14] = 0, x[15] = be64((uint64_t)len*8)` -/
def lengthBE64 (len : ℕ) : List UInt8 :=
  List.replicate 8 0 ++ reversed 8 (len * 8 % 2 ^ 64)

theorem length_lengthBE32
    (len : ℕ) :
    (lengthBE32 len).length = 8 := by
  rw [lengthBE32, List.length_append, length_reversed, length_reversed]

theorem length_lengthLE32
    (len : ℕ) :
    (lengthLE32 len).length = 8 := by
  rw [lengthLE32, List.length_append, LittleEndian.length_bytes, LittleEndian.length_bytes]

theorem length_lengthBE64
    (len : ℕ) :
    (lengthBE64 len).length = 16 := by
  rw [lengthBE64, List.length_append, length_reversed, List.length_replicate]

section Functions

variable (c : Compressions)

def sha1Loop : HashLoop (Vector UInt32 5) where
  size := 64
  cap := 320
  limit := 56
  inclusive := false
  field := lengthBE32
  compress := c.sha1
  leaves := c.sha1Leaves
  size_pos := by norm_num
  size_le := by norm_num
  cap_lt := by norm_num
  field_end := fun n => by rw [length_lengthBE32]

def sha256Loop : HashLoop (Vector UInt32 8) where
  size := 64
  cap := 64
  limit := 56
  inclusive := false
  field := lengthBE32
  compress := c.sha256
  leaves := fun _ x => x
  size_pos := by norm_num
  size_le := by norm_num
  cap_lt := by norm_num
  field_end := fun n => by rw [length_lengthBE32]

def sha512Loop : HashLoop (Vector UInt64 8) where
  size := 128
  cap := 128
  limit := 112
  inclusive := false
  field := lengthBE64
  compress := c.sha512
  leaves := fun _ x => x
  size_pos := by norm_num
  size_le := by norm_num
  cap_lt := by norm_num
  field_end := fun n => by rw [length_lengthBE64]

def rmdLoop : HashLoop (Vector UInt32 5) where
  size := 64
  cap := 64
  limit := 56
  inclusive := true
  field := lengthLE32
  compress := c.rmd
  leaves := fun _ x => x
  size_pos := by norm_num
  size_le := by norm_num
  cap_lt := by norm_num
  field_end := fun n => by rw [length_lengthLE32]

def md5Loop : HashLoop (Vector UInt32 4) where
  size := 64
  cap := 64
  limit := 56
  inclusive := true
  field := lengthLE32
  compress := c.md5
  leaves := fun _ x => x
  size_pos := by norm_num
  size_le := by norm_num
  cap_lt := by norm_num
  field_end := fun n => by rw [length_lengthLE32]

/-- The first `k` words of `buf`, each `be32` or `le32`, and each `be64`. -/
def wordsBE32 {n : ℕ} (k : ℕ) (buf : Vector UInt32 n) : List UInt8 :=
  (buf.toList.take k).flatMap (fun w => reversed 4 w.toNat)

def wordsLE32 {n : ℕ} (k : ℕ) (buf : Vector UInt32 n) : List UInt8 :=
  (buf.toList.take k).flatMap (fun w => LittleEndian.bytes 4 w.toNat)

def wordsBE64 {n : ℕ} (k : ℕ) (buf : Vector UInt64 n) : List UInt8 :=
  (buf.toList.take k).flatMap (fun w => reversed 8 w.toNat)

/-- The digest, and the blocks that were compressed. -/
def hashDigest {σ : Type} (h : HashLoop σ) (init : σ) (digest : σ → List UInt8)
    (data : List UInt8) : Except CryptoFault (List UInt8 × List (List UInt8)) :=
  (hashBlocks h init data).map (fun r => (digest r.buf, r.calls))

def sha1Init : Vector UInt32 5 :=
  #v[0x67452301, 0xefcdab89, 0x98badcfe, 0x10325476, 0xc3d2e1f0]

def sha224Init : Vector UInt32 8 :=
  #v[0xc1059ed8, 0x367cd507, 0x3070dd17, 0xf70e5939, 0xffc00b31, 0x68581511, 0x64f98fa7,
    0xbefa4fa4]

def sha256Init : Vector UInt32 8 :=
  #v[0x6a09e667, 0xbb67ae85, 0x3c6ef372, 0xa54ff53a, 0x510e527f, 0x9b05688c, 0x1f83d9ab,
    0x5be0cd19]

def sha384Init : Vector UInt64 8 :=
  #v[0xcbbb9d5dc1059ed8, 0x629a292a367cd507, 0x9159015a3070dd17, 0x152fecd8f70e5939,
    0x67332667ffc00b31, 0x8eb44a8768581511, 0xdb0c2e0d64f98fa7, 0x47b5481dbefa4fa4]

def sha512Init : Vector UInt64 8 :=
  #v[0x6a09e667f3bcc908, 0xbb67ae8584caa73b, 0x3c6ef372fe94f82b, 0xa54ff53a5f1d36f1,
    0x510e527fade682d1, 0x9b05688c2b3e6c1f, 0x1f83d9abfb41bd6b, 0x5be0cd19137e2179]

def md5Init : Vector UInt32 4 :=
  #v[0x67452301, 0xefcdab89, 0x98badcfe, 0x10325476]

def BRSHA1 := hashDigest (sha1Loop c) sha1Init (wordsBE32 5)

def BRSHA224 := hashDigest (sha256Loop c) sha224Init (wordsBE32 7)

def BRSHA256 := hashDigest (sha256Loop c) sha256Init (wordsBE32 8)

def BRSHA384 := hashDigest (sha512Loop c) sha384Init (wordsBE64 6)

def BRSHA512 := hashDigest (sha512Loop c) sha512Init (wordsBE64 8)

def BRRMD160 := hashDigest (rmdLoop c) sha1Init (wordsLE32 5)

def BRMD5 := hashDigest (md5Loop c) md5Init (wordsLE32 4)

end Functions

/-- A hash compresses the blocks of the padded data and no others, in order. -/
def Digests {σ : Type} (size : ℕ) (field : List UInt8) (compress : σ → List UInt8 → σ)
    (init : σ) (digest : σ → List UInt8) (data : List UInt8)
    (result : Except CryptoFault (List UInt8 × List (List UInt8))) : Prop :=
  ∃ p, IsPadded size field data p ∧
    result = .ok (digest ((blocks size p).foldl compress init), blocks size p)

theorem digests_hashDigest
    {σ : Type} {h : HashLoop σ} (init : σ) (digest : σ → List UInt8) {data : List UInt8}
    (hlen : data.length < 2 ^ 61) :
    Digests h.size (h.field data.length) h.compress init digest data
      (hashDigest h init digest data) := by
  obtain ⟨r, hrun, hbuf, hcalls⟩ := @hashBlocks_eq σ h init data (by omega)
  refine ⟨_, isPadded_padded h.size_pos _ _, ?_⟩
  rw [hashDigest, hrun, ← hbuf, ← hcalls]
  rfl

/-- The two words are the length in bits. -/
theorem lengthBE32_eq
    (len : ℕ) :
    lengthBE32 len = reversed 8 (8 * len) := by
  have hhigh : 8 * len / 256 ^ 4 = len / 2 ^ 29 := by omega
  have hlow : len * 8 % 2 ^ 64 % 2 ^ 32 = 8 * len % 256 ^ 4 := by omega
  rw [lengthBE32, hlow, reversed_mod, show (2 : ℕ) ^ 32 = 256 ^ 4 by norm_num, reversed_mod,
    ← hhigh, ← reversed_add]

theorem lengthLE32_eq
    (len : ℕ) :
    lengthLE32 len = LittleEndian.bytes 8 (8 * len) := by
  have hhigh : 8 * len / 256 ^ 4 = len / 2 ^ 29 := by omega
  have hlow : len * 8 % 2 ^ 64 % 2 ^ 32 = 8 * len % 256 ^ 4 := by omega
  rw [lengthLE32, hlow, bytes_mod, show (2 : ℕ) ^ 32 = 256 ^ 4 by norm_num, bytes_mod,
    ← hhigh, ← bytes_add]

theorem lengthBE64_eq
    {len : ℕ}
    (hlen : len < 2 ^ 61) :
    lengthBE64 len = reversed 16 (8 * len) := by
  have hhigh : 8 * len / 256 ^ 8 = 0 := by omega
  have hlow : len * 8 % 2 ^ 64 = 8 * len := by omega
  rw [lengthBE64, hlow, reversed_add 8 8, hhigh]
  rfl

/-- **Padding.**  Each function compresses the blocks of its data behind which a
byte `0x80`, the fewest zeros and the length in bits stand, and reads no other byte. -/
theorem hashes_pad
    (c : Compressions) {data : List UInt8}
    (hlen : data.length < 2 ^ 61) :
    Digests 64 (reversed 8 (8 * data.length)) c.sha1 sha1Init (wordsBE32 5) data
        (BRSHA1 c data) ∧
      Digests 64 (reversed 8 (8 * data.length)) c.sha256 sha224Init (wordsBE32 7) data
        (BRSHA224 c data) ∧
      Digests 64 (reversed 8 (8 * data.length)) c.sha256 sha256Init (wordsBE32 8) data
        (BRSHA256 c data) ∧
      Digests 128 (reversed 16 (8 * data.length)) c.sha512 sha384Init (wordsBE64 6) data
        (BRSHA384 c data) ∧
      Digests 128 (reversed 16 (8 * data.length)) c.sha512 sha512Init (wordsBE64 8) data
        (BRSHA512 c data) ∧
      Digests 64 (LittleEndian.bytes 8 (8 * data.length)) c.rmd sha1Init (wordsLE32 5) data
        (BRRMD160 c data) ∧
      Digests 64 (LittleEndian.bytes 8 (8 * data.length)) c.md5 md5Init (wordsLE32 4) data
        (BRMD5 c data) := by
  rw [← lengthBE32_eq, ← lengthBE64_eq hlen, ← lengthLE32_eq]
  exact ⟨@digests_hashDigest _ (sha1Loop c) _ _ _ hlen,
    @digests_hashDigest _ (sha256Loop c) _ _ _ hlen,
    @digests_hashDigest _ (sha256Loop c) _ _ _ hlen,
    @digests_hashDigest _ (sha512Loop c) _ _ _ hlen,
    @digests_hashDigest _ (sha512Loop c) _ _ _ hlen,
    @digests_hashDigest _ (rmdLoop c) _ _ _ hlen,
    @digests_hashDigest _ (md5Loop c) _ _ _ hlen⟩

/-- Compression functions that leave the words alone. -/
def Compressions.idle : Compressions where
  sha1 := fun buf _ => buf
  sha1Leaves := fun _ x => x
  sha256 := fun buf _ => buf
  sha512 := fun buf _ => buf
  rmd := fun buf _ => buf
  md5 := fun buf _ => buf

/-- Three bytes. -/
theorem hashes_pad_three :
    Digests 64 (reversed 8 (8 * 3)) Compressions.idle.sha1 sha1Init (wordsBE32 5)
        [0x61, 0x62, 0x63] (BRSHA1 Compressions.idle [0x61, 0x62, 0x63]) ∧
      Digests 64 (LittleEndian.bytes 8 (8 * 3)) Compressions.idle.md5 md5Init (wordsLE32 4)
        [0x61, 0x62, 0x63] (BRMD5 Compressions.idle [0x61, 0x62, 0x63]) := by
  obtain ⟨hsha1, -, -, -, -, -, hmd5⟩ :=
    @hashes_pad Compressions.idle [0x61, 0x62, 0x63] (by norm_num)
  exact ⟨hsha1, hmd5⟩

end BreadwalletCore
