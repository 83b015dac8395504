import Mathlib.Tactic

/-!
# Ciphers in rounds

A cipher adds a key and permutes, for some rounds, and adds a last key.  It is
undone by the same keys and the inverse permutations from the last one to the
first (`decipher_encipher`).
-/

namespace RoundCipher

universe u

variable {X : Type u}

/-- The first `n` rounds: the key is added, then the permutation is done. -/
def rounds (add f : ℕ → X → X) (x : X) : ℕ → X
  | 0 => x
  | i + 1 => f i (add i (rounds add f x i))

/-- The rounds and the last key. -/
def encipher (add f : ℕ → X → X) (n : ℕ) (x : X) : X :=
  add n (rounds add f x n)

/-- The first rounds of `decipher`, from the last key on. -/
def unrounds (add g : ℕ → X → X) (n : ℕ) (y : X) : ℕ → X
  | 0 => y
  | i + 1 => g (n - (i + 1)) (add (n - i) (unrounds add g n y i))

/-- The rounds in the opposite order, and the first key. -/
def decipher (add g : ℕ → X → X) (n : ℕ) (y : X) : X :=
  add 0 (unrounds add g n y n)

variable {add f g : ℕ → X → X} {n : ℕ}

/-- After as many rounds of `decipher` as are left of `encipher`, a key is all
that is between the two. -/
theorem unrounds_encipher
    (hadd : ∀ i x, add i (add i x) = x)
    (hg : ∀ i < n, ∀ x, g i (f i x) = x)
    (x : X) {i : ℕ}
    (hi : i ≤ n) :
    unrounds add g n (encipher add f n x) i = add (n - i) (rounds add f x (n - i)) := by
  induction i with
  | zero =>
      rfl
  | succ i ih =>
      obtain ⟨k, hk⟩ : ∃ k, n - i = k + 1 := ⟨n - i - 1, by omega⟩
      have hk' : n - (i + 1) = k := by omega
      rw [unrounds, ih (by omega), hk, hadd, hk', rounds, hg k (by omega)]

theorem decipher_encipher
    (hadd : ∀ i x, add i (add i x) = x)
    (hg : ∀ i < n, ∀ x, g i (f i x) = x) (x : X) :
    decipher add g n (encipher add f n x) = x := by
  rw [decipher, unrounds_encipher hadd hg x le_rfl, Nat.sub_self, hadd]
  rfl

end RoundCipher
