import BreadwalletCore.Data.Segment
import Mathlib.Data.List.TakeWhile
import Mathlib.Data.Nat.Bitwise
import Mathlib.Data.Nat.Digits.Lemmas
import Mathlib.Tactic

/-!
# Big endian numerals

`value b l` is the number with the digits `l`, the most significant one first.
A numeral of known length is determined by its value, and some digits in a row
are a quotient and a remainder of it (`value_slice`).

A numeral can be multiplied in place, digit by digit from its end, as
conversions between bases do it (`convert`).  A conversion that keeps the
number of leading zeros can be undone (`recode_recode`).
-/

namespace Digits

open Segment (slice)

/-- The number with the given digits. -/
def value (b : ℕ) (l : List ℕ) : ℕ :=
  Nat.ofDigits b l.reverse

variable {b : ℕ} {l l₁ l₂ : List ℕ}

@[simp] theorem value_nil
    (b : ℕ) :
    value b [] = 0 := by
  rfl

@[simp] theorem value_singleton
    (b d : ℕ) :
    value b [d] = d := by
  rw [value, List.reverse_singleton, Nat.ofDigits_singleton]

theorem value_append
    (b : ℕ) (l₁ l₂ : List ℕ) :
    value b (l₁ ++ l₂) = value b l₁ * b ^ l₂.length + value b l₂ := by
  rw [value, List.reverse_append, Nat.ofDigits_append, List.length_reverse]
  rw [value, value]
  ring

theorem value_cons
    (b d : ℕ) (l : List ℕ) :
    value b (d :: l) = d * b ^ l.length + value b l := by
  rw [← List.singleton_append, value_append, value_singleton]

theorem value_lt
    (hb : 1 < b)
    (hl : ∀ d ∈ l, d < b) :
    value b l < b ^ l.length := by
  rw [value, ← List.length_reverse]
  exact Nat.ofDigits_lt_base_pow_length hb (fun d hd => hl d (List.mem_reverse.mp hd))

/-- Numerals of one length are equal if their values are. -/
theorem value_inj
    (hb : 1 < b)
    (hlen : l₁.length = l₂.length)
    (h₁ : ∀ d ∈ l₁, d < b)
    (h₂ : ∀ d ∈ l₂, d < b)
    (h : value b l₁ = value b l₂) :
    l₁ = l₂ := by
  rw [← List.reverse_inj]
  refine Nat.ofDigits_inj_of_len_eq hb (by simpa using hlen) ?_ ?_ h
  · exact fun d hd => h₁ d (List.mem_reverse.mp hd)
  · exact fun d hd => h₂ d (List.mem_reverse.mp hd)

/-- Some digits in a row. -/
theorem value_slice
    (hb : 1 < b)
    (hl : ∀ d ∈ l, d < b)
    {off n : ℕ}
    (h : off + n ≤ l.length) :
    value b (slice l off n) = value b l / b ^ (l.length - (off + n)) % b ^ n := by
  have hsplit : l = l.take off ++ (slice l off n ++ l.drop (off + n)) := by
    rw [slice, ← List.drop_drop, List.take_append_drop, List.take_append_drop]
  have hmem : ∀ d ∈ slice l off n, d < b :=
    fun d hd => hl d (List.mem_of_mem_drop (List.mem_of_mem_take hd))
  have hlen : (slice l off n).length = n := Segment.length_slice h
  have hlow : value b (l.drop (off + n)) < b ^ (l.length - (off + n)) := by
    have hlt := value_lt hb (fun d hd => hl d (List.mem_of_mem_drop (i := off + n) hd))
    rwa [List.length_drop] at hlt
  have hmid : value b (slice l off n) < b ^ n := by
    have hlt := value_lt hb hmem
    rwa [hlen] at hlt
  have hpos : 0 < b ^ (l.length - (off + n)) := Nat.pow_pos (by omega)
  have hvalue : value b l =
      b ^ (l.length - (off + n)) * (b ^ n * value b (l.take off) + value b (slice l off n)) +
        value b (l.drop (off + n)) := by
    conv_lhs => rw [hsplit]
    rw [value_append, value_append, List.length_append, hlen, List.length_drop, pow_add]
    ring
  rw [hvalue, Nat.mul_add_div hpos, Nat.div_eq_of_lt hlow, Nat.add_zero, Nat.mul_add_mod,
    Nat.mod_eq_of_lt hmid]

/-- One digit. -/
theorem getD_eq_value
    (hb : 1 < b)
    (hl : ∀ d ∈ l, d < b)
    {i : ℕ}
    (hi : i < l.length) :
    l.getD i 0 = value b l / b ^ (l.length - (i + 1)) % b := by
  have hslice := value_slice hb hl (show i + 1 ≤ l.length from hi)
  have hone : slice l i 1 = [l.getD i 0] := by
    rw [slice, List.drop_eq_getElem_cons hi, List.getD_eq_getElem _ _ hi]
    rfl
  rwa [hone, value_singleton, pow_one] at hslice

/-- The digits of the last `k` places. -/
def digits (b n k : ℕ) : List ℕ :=
  (List.range k).map (fun i => n / b ^ (k - (i + 1)) % b)

@[simp] theorem length_digits
    (b n k : ℕ) :
    (digits b n k).length = k := by
  rw [digits, List.length_map, List.length_range]

theorem digits_lt
    (hb : 1 < b) (n k : ℕ) :
    ∀ d ∈ digits b n k, d < b := by
  intro d hd
  obtain ⟨i, -, rfl⟩ := List.mem_map.mp hd
  exact Nat.mod_lt _ (by omega)

/-- A numeral is the digits of its value. -/
theorem digits_value
    (hb : 1 < b)
    (hl : ∀ d ∈ l, d < b) :
    digits b (value b l) l.length = l := by
  refine List.ext_getElem (length_digits _ _ _) (fun i hi hi' => ?_)
  rw [← List.getD_eq_getElem l 0 hi', getD_eq_value hb hl hi']
  simp only [digits, List.getElem_map, List.getElem_range]

theorem value_digits
    (b n k : ℕ) :
    value b (digits b n k) = n % b ^ k := by
  induction k with
  | zero =>
      rw [pow_zero, Nat.mod_one]
      rfl
  | succ k ih =>
      have hcons : digits b n (k + 1) = n / b ^ k % b :: digits b n k := by
        rw [digits, List.range_succ_eq_map, List.map_cons, List.map_map]
        congr 1
        refine List.map_congr_left (fun i _ => ?_)
        rw [Function.comp_apply, Nat.succ_eq_add_one]
        congr 3
        omega
      rw [hcons, value_cons, length_digits, ih, pow_succ, Nat.mod_mul]
      ring

/-- One more place. -/
theorem digits_append_singleton
    {d : ℕ}
    (hd : d < b) (n k : ℕ) :
    digits b n k ++ [d] = digits b (b * n + d) (k + 1) := by
  have hb : 0 < b := by omega
  rw [digits, digits, List.range_succ, List.map_append, List.map_singleton]
  congr 1
  · refine List.map_congr_left (fun i hi => ?_)
    have hi' := List.mem_range.mp hi
    rw [show k + 1 - (i + 1) = k - (i + 1) + 1 by omega, pow_succ', ← Nat.div_div_eq_div_mul,
      Nat.mul_add_div hb, Nat.div_eq_of_lt hd, add_zero]
  · rw [Nat.sub_self, pow_zero, Nat.div_one, Nat.mul_add_mod, Nat.mod_eq_of_lt hd]

/-- Bits of a number out of some of its bits. -/
theorem bits_of_bits
    (n : ℕ) {s w t v : ℕ}
    (h : t + v ≤ w) :
    n / 2 ^ s % 2 ^ w / 2 ^ t % 2 ^ v = n / 2 ^ (s + t) % 2 ^ v := by
  refine Nat.eq_of_testBit_eq (fun i => ?_)
  simp only [Nat.testBit_mod_two_pow, Nat.testBit_div_two_pow]
  by_cases hi : i < v
  · have hlt : i + t < w := by omega
    have hsum : i + t + s = i + (s + t) := by omega
    simp only [hi, hlt, decide_true, Bool.true_and, hsum]
  · simp only [hi, decide_false, Bool.false_and]

/-! ## Conversion in place -/

section Convert

/-- A numeral times `m` plus a carry, and the carry out of it. -/
def mulAdd (b m : ℕ) : List ℕ → ℕ → List ℕ × ℕ
  | [], carry => ([], carry)
  | d :: l, carry =>
      let r := mulAdd b m l carry
      ((r.2 + d * m) % b :: r.1, (r.2 + d * m) / b)

/-- A numeral in base `c` of `n` digits, for digits in base `b`. -/
def convert (b c : ℕ) (l : List ℕ) (n : ℕ) : List ℕ :=
  l.foldl (fun buf d => (mulAdd c b buf d).1) (List.replicate n 0)

@[simp] theorem length_mulAdd
    (b m : ℕ) (l : List ℕ) (carry : ℕ) :
    (mulAdd b m l carry).1.length = l.length := by
  induction l with
  | nil =>
      rfl
  | cons d l ih =>
      rw [mulAdd, List.length_cons, ih, List.length_cons]

theorem mulAdd_lt
    (hb : 1 < b) (m : ℕ) (l : List ℕ) (carry : ℕ) :
    ∀ d ∈ (mulAdd b m l carry).1, d < b := by
  induction l with
  | nil =>
      simp [mulAdd]
  | cons d l ih =>
      rw [mulAdd]
      rintro x (_ | ⟨_, hx⟩)
      · exact Nat.mod_lt _ (by omega)
      · exact ih x hx

theorem value_mulAdd
    (b m : ℕ) (l : List ℕ) (carry : ℕ) :
    value b (mulAdd b m l carry).1 + (mulAdd b m l carry).2 * b ^ l.length =
      value b l * m + carry := by
  induction l with
  | nil =>
      simp [mulAdd]
  | cons d l ih =>
      have hdigit := Nat.div_add_mod ((mulAdd b m l carry).2 + d * m) b
      rw [mulAdd, value_cons, value_cons, length_mulAdd, List.length_cons, pow_succ]
      calc ((mulAdd b m l carry).2 + d * m) % b * b ^ l.length + value b (mulAdd b m l carry).1 +
            ((mulAdd b m l carry).2 + d * m) / b * (b ^ l.length * b)
          = (b * (((mulAdd b m l carry).2 + d * m) / b) + ((mulAdd b m l carry).2 + d * m) % b) *
              b ^ l.length + value b (mulAdd b m l carry).1 := by ring
        _ = value b (mulAdd b m l carry).1 + (mulAdd b m l carry).2 * b ^ l.length +
              d * m * b ^ l.length := by rw [hdigit]; ring
        _ = (d * b ^ l.length + value b l) * m + carry := by rw [ih]; ring

/-- The digits in base `c` of a number, as many as there is room for. -/
theorem convert_spec
    {c : ℕ}
    (hc : 1 < c) (b : ℕ) (l : List ℕ) (n : ℕ) :
    (convert b c l n).length = n ∧ (∀ d ∈ convert b c l n, d < c) ∧
      value c (convert b c l n) = value b l % c ^ n := by
  induction l using List.reverseRecOn with
  | nil =>
      refine ⟨List.length_replicate, fun d hd => ?_, ?_⟩
      · rw [List.eq_of_mem_replicate hd]
        omega
      · rw [convert, List.foldl_nil, value_nil, Nat.zero_mod]
        induction n with
        | zero =>
            rfl
        | succ n ih =>
            rw [List.replicate_succ, value_cons, ih, Nat.zero_mul]
  | append_singleton l d ih =>
      obtain ⟨hlen, -, hvalue⟩ := ih
      have hstep : convert b c (l ++ [d]) n = (mulAdd c b (convert b c l n) d).1 := by
        rw [convert, List.foldl_concat]
        rfl
      rw [hstep]
      have hlt := value_lt hc (mulAdd_lt hc b (convert b c l n) d)
      rw [length_mulAdd, hlen] at hlt
      have hmul := value_mulAdd c b (convert b c l n) d
      rw [hlen, hvalue] at hmul
      refine ⟨by rw [length_mulAdd, hlen], mulAdd_lt hc _ _ _, ?_⟩
      rw [value_append, value_singleton, List.length_singleton, pow_one, ← Nat.mod_add_mod,
        ← Nat.mod_mul_mod, Nat.mod_add_mod, ← hmul, Nat.add_mul_mod_self_right,
        Nat.mod_eq_of_lt hlt]

/-- A numeral without its leading zeros. -/
def strip (l : List ℕ) : List ℕ :=
  l.dropWhile (· = 0)

/-- The number of leading zeros. -/
def leadingZeros (l : List ℕ) : ℕ :=
  (l.takeWhile (· = 0)).length

/-- The numeral of a number without leading zeros. -/
def numeral (b n : ℕ) : List ℕ :=
  (Nat.digits b n).reverse

theorem value_numeral
    (b n : ℕ) :
    value b (numeral b n) = n := by
  rw [value, numeral, List.reverse_reverse, Nat.ofDigits_digits]

theorem numeral_lt
    (hb : 1 < b) (n : ℕ) :
    ∀ d ∈ numeral b n, d < b :=
  fun _ hd => Nat.digits_lt_base hb (List.mem_reverse.mp hd)

theorem length_numeral_le_iff
    (hb : 1 < b) (n k : ℕ) :
    (numeral b n).length ≤ k ↔ n < b ^ k := by
  rw [numeral, List.length_reverse, Nat.digits_length_le_iff hb]

theorem head?_numeral
    (b n : ℕ) :
    (numeral b n).head? ≠ some 0 := by
  rw [numeral, List.head?_reverse]
  intro hlast
  have hne : Nat.digits b n ≠ [] := by
    rintro heq
    rw [heq] at hlast
    exact absurd hlast (by simp)
  rw [List.getLast?_eq_some_getLast hne] at hlast
  exact Nat.getLast_digit_ne_zero b (Nat.digits_ne_nil_iff_ne_zero.mp hne) (Option.some.inj hlast)

theorem leadingZeros_zero_cons
    (l : List ℕ) :
    leadingZeros (0 :: l) = leadingZeros l + 1 := by
  rfl

theorem leadingZeros_cons
    {d : ℕ}
    (hd : d ≠ 0) (l : List ℕ) :
    leadingZeros (d :: l) = 0 := by
  rw [leadingZeros, List.takeWhile_cons_of_neg (by simpa using hd)]
  rfl

theorem replicate_leadingZeros
    (l : List ℕ) :
    List.replicate (leadingZeros l) 0 ++ strip l = l := by
  have hzeros : l.takeWhile (· = 0) = List.replicate (leadingZeros l) 0 := by
    refine List.eq_replicate_iff.mpr ⟨rfl, fun d hd => ?_⟩
    simpa using List.mem_takeWhile_imp hd
  rw [← hzeros]
  exact List.takeWhile_append_dropWhile

theorem drop_leadingZeros
    (l : List ℕ) :
    l.drop (leadingZeros l) = strip l := by
  have hdrop : (List.replicate (leadingZeros l) 0 ++ strip l).drop
      (List.replicate (leadingZeros l) 0).length = strip l := List.drop_left
  rwa [replicate_leadingZeros, List.length_replicate] at hdrop

theorem head?_strip
    (l : List ℕ) :
    (strip l).head? ≠ some 0 := by
  intro hhead
  have hnot := List.head?_dropWhile_not (· = 0) l
  rw [show l.dropWhile (· = 0) = strip l from rfl, hhead] at hnot
  exact absurd hnot (by simp)

theorem value_replicate_zero_append
    (b k : ℕ) (l : List ℕ) :
    value b (List.replicate k 0 ++ l) = value b l := by
  induction k with
  | zero =>
      rfl
  | succ k ih =>
      rw [List.replicate_succ, List.cons_append, value_cons, ih, Nat.zero_mul, Nat.zero_add]

theorem value_strip
    (b : ℕ) (l : List ℕ) :
    value b (strip l) = value b l := by
  conv_rhs => rw [← replicate_leadingZeros l]
  rw [value_replicate_zero_append]

/-- A numeral without leading zeros is determined by its value. -/
theorem eq_numeral
    (hb : 1 < b)
    (hl : ∀ d ∈ l, d < b)
    (hhead : l.head? ≠ some 0) :
    l = numeral b (value b l) := by
  rw [numeral, value, Nat.digits_ofDigits b hb _ (fun d hd => hl d (List.mem_reverse.mp hd)),
    List.reverse_reverse]
  intro hne hzero
  refine hhead ?_
  rw [← List.getLast?_reverse, List.getLast?_eq_some_getLast hne, hzero]

theorem strip_eq_numeral
    (hb : 1 < b)
    (hl : ∀ d ∈ l, d < b) :
    strip l = numeral b (value b l) := by
  rw [← value_strip]
  refine eq_numeral hb (fun d hd => hl d ?_) (head?_strip l)
  exact (List.dropWhile_sublist _).subset hd

theorem strip_convert
    {c n : ℕ}
    (hc : 1 < c)
    (h : value b l < c ^ n) :
    strip (convert b c l n) = numeral c (value b l) := by
  obtain ⟨-, hlt, hvalue⟩ := convert_spec hc b l n
  rw [strip_eq_numeral hc hlt, hvalue, Nat.mod_eq_of_lt h]

/-- The numeral in another base, with as many leading zeros. -/
def recode (b c : ℕ) (l : List ℕ) : List ℕ :=
  List.replicate (leadingZeros l) 0 ++ numeral c (value b l)

theorem leadingZeros_append
    (k : ℕ)
    (hhead : l.head? ≠ some 0) :
    leadingZeros (List.replicate k 0 ++ l) = k := by
  rw [leadingZeros, List.takeWhile_append_of_pos (fun d hd => by
    rw [List.eq_of_mem_replicate hd]; rfl)]
  cases l with
  | nil =>
      rw [List.takeWhile_nil, List.append_nil, List.length_replicate]
  | cons d l =>
      have hd : ¬ d = 0 := fun h => hhead (by rw [h]; rfl)
      rw [List.takeWhile_cons_of_neg (by simpa using hd), List.append_nil, List.length_replicate]

theorem recode_lt
    {c : ℕ}
    (hc : 1 < c) (b : ℕ) (l : List ℕ) :
    ∀ d ∈ recode b c l, d < c := by
  intro d hd
  rcases List.mem_append.mp hd with hd | hd
  · rw [List.eq_of_mem_replicate hd]
    omega
  · exact numeral_lt hc _ d hd

/-- **The way back.** -/
theorem recode_recode
    {c : ℕ}
    (hb : 1 < b)
    (hl : ∀ d ∈ l, d < b) :
    recode c b (recode b c l) = l := by
  rw [recode, recode, leadingZeros_append _ (head?_numeral _ _), value_replicate_zero_append,
    value_numeral, ← strip_eq_numeral hb hl, replicate_leadingZeros]

/-- The carries out of the numeral in a conversion. -/
def carries (b c : ℕ) : List ℕ → List ℕ → List ℕ
  | _, [] => []
  | buf, d :: l => (mulAdd c b buf d).2 :: carries b c (mulAdd c b buf d).1 l

/-- Where there is room for the result, nothing is carried out. -/
theorem carries_eq_zero
    {c : ℕ} {buf : List ℕ}
    (hb : 0 < b)
    (h : value c buf * b ^ l.length + value b l < c ^ buf.length) :
    ∀ carry ∈ carries b c buf l, carry = 0 := by
  induction l generalizing buf with
  | nil =>
      simp [carries]
  | cons d l ih =>
      rw [List.length_cons, value_cons] at h
      have hmul := value_mulAdd c b buf d
      have hroom : value c buf * b + d < c ^ buf.length := by
        have hpos : 0 < b ^ l.length := Nat.pow_pos hb
        calc value c buf * b + d
            ≤ (value c buf * b + d) * b ^ l.length := Nat.le_mul_of_pos_right _ hpos
          _ = value c buf * b ^ (l.length + 1) + d * b ^ l.length := by ring
          _ < c ^ buf.length := by omega
      have hcarry : (mulAdd c b buf d).2 = 0 := by
        by_contra hne
        have hle := Nat.le_mul_of_pos_left (c ^ buf.length) (Nat.pos_of_ne_zero hne)
        omega
      rw [hcarry, Nat.zero_mul, Nat.add_zero] at hmul
      rintro carry (_ | ⟨_, hmem⟩)
      · exact hcarry
      · refine ih ?_ carry hmem
        rw [hmul, length_mulAdd]
        calc (value c buf * b + d) * b ^ l.length + value b l
            = value c buf * b ^ (l.length + 1) + (d * b ^ l.length + value b l) := by ring
          _ < c ^ buf.length := h

end Convert

end Digits
