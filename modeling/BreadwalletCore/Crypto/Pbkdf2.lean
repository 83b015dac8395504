import BreadwalletCore.Crypto.Hmac

/-!
# PBKDF2

`BRPBKDF2` of `BRCrypto.c`.  The number `i` of a block is a `uint32_t`, which does not
wrap while `dkLen` stays below `2^32`.
-/

namespace BreadwalletCore

open KeyedHash
open LittleEndian (reversed length_reversed)

/-- The loop over the rounds: `U` and `T`. -/
def pbkdf2Rounds (hash : HashAlgorithm) (pw : List UInt8) :
    ℕ → List UInt8 → List UInt8 → Except CryptoFault (List UInt8 × List UInt8)
  | 0, U, T => .ok (U, T)
  | rounds + 1, U, T => do
      let U ← BRHMAC hash pw U
      pbkdf2Rounds hash pw rounds U (xorInto 4 (hash.hashLen / 4) T U)

/-- A turn of the loop over the blocks: `s` and `dk`. -/
def pbkdf2Turn (hash : HashAlgorithm) (dkLen : ℕ) (pw salt : List UInt8) (rounds : ℕ)
    (st : List UInt8 × List UInt8) (i : ℕ) : Except CryptoFault (List UInt8 × List UInt8) := do
  let s ← poke (salt.length + 4) st.1 salt.length (reversed 4 (i + 1))
  let U ← BRHMAC hash pw s
  let (_, T) ← pbkdf2Rounds hash pw (rounds - 1) U U
  let dk ← poke dkLen st.2 (i * hash.hashLen)
    (T.take (if i * hash.hashLen + hash.hashLen ≤ dkLen then hash.hashLen
      else dkLen % hash.hashLen))
  .ok (s, dk)

/-- `BRPBKDF2`: the derived key. -/
def BRPBKDF2 (hash : HashAlgorithm) (dkLen : ℕ) (pw salt : List UInt8) (rounds : ℕ) :
    Except CryptoFault (List UInt8) := do
  let s ← poke (salt.length + 4) [] 0 salt
  let (_, dk) ← (List.range ((dkLen + hash.hashLen - 1) / hash.hashLen)).foldlM
    (pbkdf2Turn hash dkLen pw salt rounds) (s, [])
  .ok dk

/-- PBKDF2 with the hash function. -/
def HashAlgorithm.pbkdf2 (hash : HashAlgorithm) (pw salt : List UInt8) (rounds dkLen : ℕ) :
    List UInt8 :=
  KeyedHash.pbkdf2 (hash.hmac pw) hash.hashLen salt rounds dkLen

section Pbkdf2

variable (hash : HashAlgorithm) (pw : List UInt8)

/-- The words of a digest. -/
theorem HashAlgorithm.digest_words :
    4 * (hash.hashLen / 4) = hash.hashLen :=
  Nat.mul_div_cancel' hash.dvd

/-- `T` is the block of as many rounds as have been made, and `U` its last summand. -/
theorem pbkdf2Rounds_eq
    (seed : List UInt8) (rounds made : ℕ) :
    pbkdf2Rounds hash pw rounds ((hash.hmac pw)^[made + 1] seed)
        (pbkdf2Block (hash.hmac pw) seed made) =
      .ok ((hash.hmac pw)^[made + rounds + 1] seed,
        pbkdf2Block (hash.hmac pw) seed (made + rounds)) := by
  induction rounds generalizing made with
  | zero =>
      rfl
  | succ rounds ih =>
      have hT := length_pbkdf2Block (hash.length_hmac pw) seed made
      have hU : ((hash.hmac pw)^[made + 2] seed).length = hash.hashLen := by
        rw [Function.iterate_succ_apply']
        exact hash.length_hmac pw _
      have hnext := ih (made + 1)
      rw [pbkdf2Rounds, BRHMAC_eq, Machine.ok_bind, ← Function.iterate_succ_apply' (hash.hmac pw),
        xorInto_eq (hT.trans hash.digest_words.symm) (hU.trans hash.digest_words.symm)]
      rw [pbkdf2Block, (by omega : made + 1 + rounds = made + (rounds + 1))] at hnext
      exact hnext

/-- The array `s` holds the salt, and `dk` the blocks so far. -/
def Pbkdf2State (dkLen : ℕ) (salt : List UInt8) (rounds i : ℕ)
    (st : List UInt8 × List UInt8) : Prop :=
  st.1.take salt.length = salt ∧ st.1.length ≤ salt.length + 4 ∧
    st.2 = ((List.range i).flatMap (fun j =>
      pbkdf2Block (hash.hmac pw) (salt ++ reversed 4 (j + 1)) (rounds - 1))).take dkLen

theorem pbkdf2Turn_eq
    {dkLen rounds i : ℕ} {salt : List UInt8} {st : List UInt8 × List UInt8}
    (hi : i < (dkLen + hash.hashLen - 1) / hash.hashLen)
    (hst : Pbkdf2State hash pw dkLen salt rounds i st) :
    ∃ st', pbkdf2Turn hash dkLen pw salt rounds st i = .ok st' ∧
      Pbkdf2State hash pw dkLen salt rounds (i + 1) st' := by
  obtain ⟨hsalt, hs, hdk⟩ := hst
  have hpos := hash.pos
  have hlen := length_pbkdf2Block (hash.length_hmac pw) (salt ++ reversed 4 (i + 1)) (rounds - 1)
  have hmore : i * hash.hashLen < dkLen := by
    have hle := (Nat.le_div_iff_mul_le hpos).mp (Nat.succ_le_of_lt hi)
    rw [Nat.succ_mul] at hle
    omega
  have hpoke : poke (salt.length + 4) st.1 salt.length (reversed 4 (i + 1)) =
      .ok (salt ++ reversed 4 (i + 1)) := by
    rw [poke_eq (by rw [length_reversed]), hsalt, length_reversed,
      List.drop_eq_nil_of_le hs, List.append_nil]
  have hfront : ((List.range i).flatMap (fun j =>
      pbkdf2Block (hash.hmac pw) (salt ++ reversed 4 (j + 1)) (rounds - 1))).length =
      i * hash.hashLen := by
    rw [length_flatMap_range (fun j => length_pbkdf2Block (hash.length_hmac pw) _ _), Nat.mul_comm]
  have hrounds := pbkdf2Rounds_eq hash pw (salt ++ reversed 4 (i + 1)) (rounds - 1) 0
  rw [Function.iterate_one, Nat.zero_add] at hrounds
  refine ⟨(salt ++ reversed 4 (i + 1), ((List.range (i + 1)).flatMap (fun j =>
    pbkdf2Block (hash.hmac pw) (salt ++ reversed 4 (j + 1)) (rounds - 1))).take dkLen),
    ?_, List.take_left, ?_, rfl⟩
  · rw [pbkdf2Turn, hpoke, Machine.ok_bind, BRHMAC_eq, Machine.ok_bind]
    rw [pbkdf2Block] at hrounds
    rw [hrounds, Machine.ok_bind]
    dsimp only
    rw [hdk, poke_block hlen hfront hmore, Machine.ok_bind,
      List.range_succ, List.flatMap_append, List.flatMap_singleton]
  · rw [List.length_append, length_reversed]

theorem BRPBKDF2_eq
    (salt : List UInt8) (dkLen rounds : ℕ) :
    BRPBKDF2 hash dkLen pw salt rounds = .ok (hash.pbkdf2 pw salt rounds dkLen) := by
  have hstart : Pbkdf2State hash pw dkLen salt rounds 0 (salt, []) :=
    ⟨List.take_length, Nat.le_add_right _ _, List.take_nil.symm⟩
  obtain ⟨⟨s, dk⟩, hrun, -, -, hdk⟩ := foldlM_range hstart (fun i st hi => pbkdf2Turn_eq hash pw hi)
  rw [BRPBKDF2, @poke_end _ 0 [] salt rfl (by omega), Machine.ok_bind, List.nil_append, hrun,
    Machine.ok_bind]
  exact congrArg _ hdk

end Pbkdf2

end BreadwalletCore
