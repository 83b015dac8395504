import BreadwalletCore.Crypto.Hash
import BreadwalletCore.Data.KeyedHash

/-!
# Message authentication codes and the generator

`BRHMAC` and `BRHMACDRBG` of `BRCrypto.c` for a hash function that is given.  An array
is the list of its bytes, as far as they have been written; the code combines them word
by word.
-/

namespace BreadwalletCore

open Segment (slice)
open KeyedHash

/-! ## Arrays -/

/-- `x[j] ^= y[j]` for `n` words of `w` bytes. -/
def xorInto (w n : ℕ) (x y : List UInt8) : List UInt8 :=
  (List.range n).foldl (fun x j =>
    x.take (w * j) ++ xorBytes (slice x (w * j) w) (slice y (w * j) w) ++ x.drop (w * j + w)) x

theorem xorInto_append
    {w n : ℕ} {x y : List UInt8} (rest rest' : List UInt8)
    (hx : x.length = w * n)
    (hy : y.length = w * n) :
    xorInto w n (x ++ rest) (y ++ rest') = xorBytes x y ++ rest := by
  induction n generalizing x y rest rest' with
  | zero =>
      rw [Nat.mul_zero, List.length_eq_zero_iff] at hx hy
      rw [hx, hy]
      rfl
  | succ n ih =>
      -- the last word is combined behind the words in front of it
      rw [Nat.mul_succ] at hx hy
      obtain ⟨x₁, x₂, rfl, hx₁, hx₂⟩ : ∃ x₁ x₂, x = x₁ ++ x₂ ∧ x₁.length = w * n ∧ x₂.length = w :=
        ⟨x.take (w * n), x.drop (w * n), (List.take_append_drop _ _).symm,
          by rw [List.length_take]; omega, by rw [List.length_drop]; omega⟩
      obtain ⟨y₁, y₂, rfl, hy₁, hy₂⟩ : ∃ y₁ y₂, y = y₁ ++ y₂ ∧ y₁.length = w * n ∧ y₂.length = w :=
        ⟨y.take (w * n), y.drop (w * n), (List.take_append_drop _ _).symm,
          by rw [List.length_take]; omega, by rw [List.length_drop]; omega⟩
      have hfront := ih (x₂ ++ rest) (y₂ ++ rest') hx₁ hy₁
      have hlen : (xorBytes x₁ y₁).length = w * n := by
        rw [length_xorBytes, hx₁, hy₁, Nat.min_self]
      rw [xorInto] at hfront ⊢
      rw [List.range_succ, List.foldl_append, List.append_assoc, List.append_assoc, hfront,
        List.foldl_cons, List.foldl_nil, List.take_left' hlen, ← List.drop_drop, slice,
        List.drop_left' hlen, List.take_left' hx₂, List.drop_left' hx₂, slice,
        List.drop_left' hy₁, List.take_left' hy₂, xorBytes_append _ _ (hx₁.trans hy₁.symm)]

/-- Whole arrays. -/
theorem xorInto_eq
    {w n : ℕ} {x y : List UInt8}
    (hx : x.length = w * n)
    (hy : y.length = w * n) :
    xorInto w n x y = xorBytes x y := by
  have h := xorInto_append [] [] hx hy
  rwa [List.append_nil, List.append_nil, List.append_nil] at h

/-- A write at the end of what has been written. -/
theorem poke_end
    {cap off : ℕ} {x l : List UInt8}
    (hx : x.length = off)
    (hcap : off + l.length ≤ cap) :
    poke cap x off l = .ok (x ++ l) := by
  rw [poke_eq hcap, List.take_of_length_le hx.le, List.drop_eq_nil_of_le (by omega),
    List.append_nil]

/-- A write behind the first part of an array. -/
theorem poke_next
    {cap off : ℕ} {front rest l : List UInt8}
    (hfront : front.length = off)
    (hcap : off + l.length ≤ cap) :
    poke cap (front ++ rest) off l = .ok (front ++ l ++ rest.drop l.length) := by
  rw [poke_eq hcap, List.take_left' hfront, ← List.drop_drop, List.drop_left' hfront]

/-- A write over a part of an array. -/
theorem poke_over
    {cap off : ℕ} {front old back l : List UInt8}
    (hfront : front.length = off)
    (hold : old.length = l.length)
    (hcap : off + l.length ≤ cap) :
    poke cap (front ++ (old ++ back)) off l = .ok (front ++ (l ++ back)) := by
  rw [poke_next hfront hcap, List.drop_left' hold, List.append_assoc]

/-- Output in blocks of `size` bytes, of which the last one is cut off at the end. -/
theorem poke_block
    {size outLen i : ℕ} {out block : List UInt8}
    (hblock : block.length = size)
    (hout : out.length = i * size)
    (hmore : i * size < outLen) :
    poke outLen (out.take outLen) (i * size)
        (block.take (if i * size + size ≤ outLen then size else outLen % size)) =
      .ok ((out ++ block).take outLen) := by
  have hcut : out ++ block.take (if i * size + size ≤ outLen then size else outLen % size) =
      (out ++ block).take outLen := by
    rw [List.take_append, List.take_of_length_le (by omega : out.length ≤ outLen), hout]
    refine congrArg _ ?_
    split_ifs with hwhole
    · rw [List.take_of_length_le hblock.le, List.take_of_length_le (by omega)]
    · have hmod : outLen % size = outLen - i * size := by
        have hsplit : outLen = outLen - i * size + i * size := by omega
        rw [hsplit, Nat.add_mul_mod_self_right, Nat.mod_eq_of_lt (by omega)]
        omega
      rw [hmod]
  have hroom := List.length_take_le outLen (out ++ block)
  rw [← hcut, List.length_append, hout] at hroom
  rw [@List.take_of_length_le _ outLen out (by omega), poke_end hout hroom, hcut]

/-- An invariant of a counted loop that may fail. -/
theorem foldlM_range
    {α ε : Type} {f : α → ℕ → Except ε α} {inv : ℕ → α → Prop} {n : ℕ} {a : α}
    (hstart : inv 0 a)
    (hstep : ∀ i a, i < n → inv i a → ∃ b, f a i = .ok b ∧ inv (i + 1) b) :
    ∃ b, (List.range n).foldlM f a = .ok b ∧ inv n b := by
  induction n with
  | zero =>
      exact ⟨a, rfl, hstart⟩
  | succ n ih =>
      obtain ⟨b, hrun, hb⟩ := ih (fun i a hi => hstep i a (by omega))
      obtain ⟨c, hturn, hc⟩ := hstep n b (by omega) hb
      refine ⟨c, ?_, hc⟩
      rw [List.range_succ, List.foldlM_append, hrun, Machine.ok_bind, List.foldlM_cons, hturn,
        Machine.ok_bind]
      rfl

/-! ## HMAC -/

/-- A hash function and its length. -/
structure HashAlgorithm where
  run : List UInt8 → List UInt8
  hashLen : ℕ
  length_run : ∀ l, (run l).length = hashLen
  pos : 0 < hashLen
  dvd : 4 ∣ hashLen
  le : hashLen ≤ 128

/-- A hash function of 32 bytes that repeats the beginning of its data. -/
def headHash : HashAlgorithm where
  run l := (l ++ List.replicate 32 0).take 32
  hashLen := 32
  length_run l := by
    rw [List.length_take, List.length_append, List.length_replicate]
    omega
  pos := by decide
  dvd := by decide
  le := by decide

/-- `(hashLen > 32) ? 128 : 64` -/
def HashAlgorithm.blockLen (hash : HashAlgorithm) : ℕ :=
  if hash.hashLen > 32 then 128 else 64

/-- `BRHMAC`.  `kipad` and `kopad` are arrays of words of 8 bytes. -/
def BRHMAC (hash : HashAlgorithm) (key data : List UInt8) : Except CryptoFault (List UInt8) := do
  let blockLen := hash.blockLen
  let ipadLen := 8 * ((blockLen + data.length) / 8 + 1)
  let opadLen := 8 * ((blockLen + hash.hashLen) / 8 + 1)
  let key := if key.length > blockLen then hash.run key else key
  let kipad ← poke ipadLen [] 0 (List.replicate blockLen 0)
  let kipad ← poke ipadLen kipad 0 key
  let kipad := xorInto 8 (blockLen / 8) kipad (List.replicate blockLen 0x36)
  let kopad ← poke opadLen [] 0 (List.replicate blockLen 0)
  let kopad ← poke opadLen kopad 0 key
  let kopad := xorInto 8 (blockLen / 8) kopad (List.replicate blockLen 0x5c)
  let kipad ← poke ipadLen kipad (8 * (blockLen / 8)) data
  let inner := hash.run (kipad.take (blockLen + data.length))
  let kopad ← poke opadLen kopad (8 * (blockLen / 8)) inner
  .ok (hash.run (kopad.take (blockLen + hash.hashLen)))

/-- HMAC with the hash function. -/
def HashAlgorithm.hmac (hash : HashAlgorithm) (key data : List UInt8) : List UInt8 :=
  KeyedHash.hmac hash.run hash.blockLen key data

section Hmac

variable (hash : HashAlgorithm)

theorem HashAlgorithm.length_hmac
    (key data : List UInt8) :
    (hash.hmac key data).length = hash.hashLen :=
  hash.length_run _

theorem HashAlgorithm.hashLen_le
    (hash : HashAlgorithm) :
    hash.hashLen ≤ hash.blockLen := by
  have hle := hash.le
  rw [HashAlgorithm.blockLen]
  split_ifs <;> omega

theorem HashAlgorithm.blockLen_words
    (hash : HashAlgorithm) :
    8 * (hash.blockLen / 8) = hash.blockLen := by
  rw [HashAlgorithm.blockLen]
  split_ifs <;> rfl

/-- The key in a block: zeros, and the key written over them. -/
theorem poke_key
    {cap size : ℕ} {key : List UInt8}
    (hcap : size ≤ cap)
    (hkey : key.length ≤ size) :
    poke cap (List.replicate size 0) 0 key =
      .ok (key ++ List.replicate (size - key.length) 0) := by
  rw [poke_eq (by omega), List.take_zero, List.nil_append, Nat.zero_add, List.drop_replicate]

/-- The block of a key, combined with one byte in every place. -/
theorem xorInto_block
    {size : ℕ} {block : List UInt8}
    (hblock : block.length = 8 * (size / 8))
    (hsize : 8 * (size / 8) = size)
    (c : UInt8) :
    xorInto 8 (size / 8) block (List.replicate size c) = block.map (fun b => b ^^^ c) := by
  have hlen : block.length = size := hblock.trans hsize
  rw [xorInto_eq hblock (by rw [List.length_replicate, hsize]), ← hlen, xorBytes_replicate]

theorem BRHMAC_eq
    (key data : List UInt8) :
    BRHMAC hash key data = .ok (hash.hmac key data) := by
  have hwords := hash.blockLen_words
  have hle := hash.hashLen_le
  obtain ⟨size, hsize⟩ : ∃ size, hash.blockLen = size := ⟨_, rfl⟩
  obtain ⟨k, hk⟩ : ∃ k, (if key.length > size then hash.run key else key) = k := ⟨_, rfl⟩
  rw [hsize] at hwords hle
  have hkey : k.length ≤ size := by
    rw [← hk]
    split_ifs
    · rw [hash.length_run]
      exact hle
    · omega
  have hblock : (k ++ List.replicate (size - k.length) 0).length = 8 * (size / 8) := by
    rw [List.length_append, List.length_replicate, hwords]
    omega
  have hpad : ∀ c : UInt8,
      ((k ++ List.replicate (size - k.length) 0).map (fun b => b ^^^ c)).length = size := by
    intro c
    rw [List.length_map, hblock, hwords]
  have hzeros : ∀ cap, size ≤ cap →
      poke cap [] 0 (List.replicate size 0) = .ok (List.replicate size 0) := by
    intro cap hcap
    rw [poke_eq (by rw [List.length_replicate]; omega), List.take_nil, List.drop_nil,
      List.nil_append, List.append_nil]
  have happend : ∀ cap (l : List UInt8) (c : UInt8), size + l.length ≤ cap →
      poke cap ((k ++ List.replicate (size - k.length) 0).map (fun b => b ^^^ c)) size l =
        .ok ((k ++ List.replicate (size - k.length) 0).map (fun b => b ^^^ c) ++ l) := by
    intro cap l c hcap
    rw [poke_eq hcap, List.take_of_length_le (hpad c).le,
      List.drop_eq_nil_of_le (by rw [hpad]; omega), List.append_nil]
  rw [BRHMAC, HashAlgorithm.hmac, KeyedHash.hmac, blockKey, hsize]
  dsimp only
  rw [hk, hzeros _ (by omega), Machine.ok_bind, poke_key (by omega) hkey, Machine.ok_bind,
    xorInto_block hblock hwords, hzeros _ (by omega), Machine.ok_bind,
    poke_key (by omega) hkey, Machine.ok_bind, xorInto_block hblock hwords, hwords,
    happend _ _ _ (by omega), Machine.ok_bind,
    List.take_of_length_le (by rw [List.length_append, hpad]),
    happend _ _ _ (by rw [hash.length_run]; omega), Machine.ok_bind,
    List.take_of_length_le (by rw [List.length_append, hpad, hash.length_run])]

end Hmac

end BreadwalletCore
