import BreadwalletCore.Data.Digits

/-!
# Decimal numbers as text

A decimal number is a mantissa and an exponent of ten; all arithmetic is exact.

* `print` writes it without an exponent, and without zeros at the end of its fraction.
* `scan` reads the longest number at the beginning of a text, as scanners do.
-/

namespace DecimalText

open Digits (value numeral digits)

structure Decimal where
  mantissa : ℤ
  exponent : ℤ

/-- Multiplication by a power of ten. -/
def Decimal.scale (d : Decimal) (power : ℤ) : Decimal :=
  { d with exponent := d.exponent + power }

/-- The integer part, in 64 bits. -/
def Decimal.uint64 (d : Decimal) : ℕ :=
  (Int.tdiv (d.mantissa * 10 ^ d.exponent.toNat) (10 ^ (-d.exponent).toNat) % 2 ^ 64).toNat

/-! ## Printing -/

def digitChar (d : ℕ) : Char :=
  Char.ofNat (48 + d)

def isDigit (c : Char) : Bool :=
  '0' ≤ c && c ≤ '9'

def digitValue (c : Char) : ℕ :=
  c.toNat - 48

/-- The digits of an integer, at least one. -/
def wholeDigits (n : ℕ) : List ℕ :=
  if n = 0 then [0] else numeral 10 n

/-- Digits without the zeros at their end. -/
def dropZeros (l : List ℕ) : List ℕ :=
  (l.reverse.dropWhile (· = 0)).reverse

def print (d : Decimal) : List Char :=
  let m := d.mantissa.natAbs
  let places := (-d.exponent).toNat
  let whole := wholeDigits (m * 10 ^ d.exponent.toNat / 10 ^ places)
  let frac := dropZeros (digits 10 m places)
  (if d.mantissa < 0 then ['-'] else []) ++ (whole.map digitChar ++
    if frac = [] then [] else '.' :: frac.map digitChar)

/-! ## Scanning -/

def isSpace (c : Char) : Bool :=
  c = ' ' || c = '\t' || c = '\n' || c = '\r'

/-- A sign, and what is behind it. -/
def scanSign (s : List Char) : ℤ × List Char :=
  match s with
  | [] => (1, [])
  | c :: t => if c = '-' then (-1, t) else if c = '+' then (1, t) else (1, c :: t)

/-- The number of a text of digits. -/
def number (s : List Char) : ℕ :=
  value 10 (s.map digitValue)

def scanExponent (s : List Char) : ℤ :=
  match s with
  | [] => 0
  | c :: t =>
      if c = 'e' ∨ c = 'E' then (scanSign t).1 * number ((scanSign t).2.takeWhile isDigit) else 0

/-- The digits behind a point, and what is behind them. -/
def scanFraction (s : List Char) : List Char × List Char :=
  match s with
  | [] => ([], [])
  | c :: t => if c = '.' then (t.takeWhile isDigit, t.dropWhile isDigit) else ([], c :: t)

def scan (s : List Char) : Option Decimal :=
  let s := scanSign (s.dropWhile isSpace)
  let whole := s.2.takeWhile isDigit
  let frac := scanFraction (s.2.dropWhile isDigit)
  if whole = [] ∧ frac.1 = [] then none
  else some ⟨s.1 * number (whole ++ frac.1), scanExponent frac.2 - frac.1.length⟩

/-! ## What is printed is scanned -/

theorem digitChar_spec
    {d : ℕ}
    (hd : d < 10) :
    isDigit (digitChar d) = true ∧ digitValue (digitChar d) = d ∧ isSpace (digitChar d) = false ∧
      digitChar d ≠ '-' ∧ digitChar d ≠ '+' := by
  revert d
  decide

theorem number_digitChar
    {l : List ℕ}
    (hl : ∀ d ∈ l, d < 10) :
    number (l.map digitChar) = value 10 l := by
  have hback : (l.map digitChar).map digitValue = l := by
    rw [List.map_map]
    exact (List.map_congr_left (fun d hd => (digitChar_spec (hl d hd)).2.1)).trans (List.map_id l)
  rw [number, hback]

theorem isDigit_of_mem
    {l : List ℕ} {c : Char}
    (hl : ∀ d ∈ l, d < 10)
    (hc : c ∈ l.map digitChar) :
    isDigit c = true := by
  obtain ⟨d, hd, rfl⟩ := List.mem_map.mp hc
  exact (digitChar_spec (hl d hd)).1

/-- Digits in front of a text that does not go on with one. -/
theorem takeWhile_digits
    {l : List ℕ} {rest : List Char}
    (hl : ∀ d ∈ l, d < 10)
    (hrest : rest.takeWhile isDigit = []) :
    (l.map digitChar ++ rest).takeWhile isDigit = l.map digitChar := by
  rw [List.takeWhile_append_of_pos (fun c hc => isDigit_of_mem hl hc), hrest, List.append_nil]

theorem dropWhile_digits
    {l : List ℕ} {rest : List Char}
    (hl : ∀ d ∈ l, d < 10)
    (hrest : rest.dropWhile isDigit = rest) :
    (l.map digitChar ++ rest).dropWhile isDigit = rest := by
  rw [List.dropWhile_append_of_pos (fun c hc => isDigit_of_mem hl hc), hrest]

theorem wholeDigits_spec
    (n : ℕ) :
    wholeDigits n ≠ [] ∧ (∀ d ∈ wholeDigits n, d < 10) ∧ value 10 (wholeDigits n) = n := by
  rw [wholeDigits]
  split_ifs with h
  · rw [h]
    refine ⟨List.cons_ne_nil _ _, fun d hd => ?_, rfl⟩
    rw [List.mem_singleton.mp hd]
    decide
  · refine ⟨fun hnil => h ?_, Digits.numeral_lt (by decide) n, Digits.value_numeral 10 n⟩
    rw [← Digits.value_numeral 10 n, hnil, Digits.value_nil]

/-- Zeros at the end of a fraction. -/
theorem exists_replicate_dropZeros
    (l : List ℕ) :
    ∃ z, l = dropZeros l ++ List.replicate z 0 := by
  refine ⟨(l.reverse.takeWhile (· = 0)).length, ?_⟩
  have hzeros : l.reverse.takeWhile (· = 0) =
      List.replicate (l.reverse.takeWhile (· = 0)).length 0 :=
    List.eq_replicate_of_mem (fun d hd => by simpa using List.mem_takeWhile_imp hd)
  have hsplit := congrArg List.reverse (@List.takeWhile_append_dropWhile _ (· = 0) l.reverse)
  rw [List.reverse_append, List.reverse_reverse, hzeros, List.reverse_replicate] at hsplit
  exact hsplit.symm

theorem value_append_zeros
    (l : List ℕ) (z : ℕ) :
    value 10 (l ++ List.replicate z 0) = value 10 l * 10 ^ z := by
  have hzero : value 10 (List.replicate z 0) = 0 := by
    have h := Digits.value_replicate_zero_append 10 z []
    rwa [List.append_nil, Digits.value_nil] at h
  rw [Digits.value_append, List.length_replicate, hzero, Nat.add_zero]

/-- The point and the digits behind it. -/
def fractionText (f : List ℕ) : List Char :=
  if f = [] then [] else '.' :: f.map digitChar

theorem scanFraction_fractionText
    {f : List ℕ}
    (hf : ∀ d ∈ f, d < 10) :
    (fractionText f).takeWhile isDigit = [] ∧ (fractionText f).dropWhile isDigit = fractionText f ∧
      scanFraction (fractionText f) = (f.map digitChar, []) := by
  rw [fractionText]
  split_ifs with h
  · rw [h]
    exact ⟨rfl, rfl, rfl⟩
  · have htake := takeWhile_digits hf (rfl : ([] : List Char).takeWhile isDigit = [])
    have hdrop := dropWhile_digits hf (rfl : ([] : List Char).dropWhile isDigit = [])
    rw [List.append_nil] at htake hdrop
    refine ⟨rfl, rfl, ?_⟩
    rw [scanFraction, if_pos rfl, htake, hdrop]

/-- Digits, and a fraction. -/
theorem scan_digits
    {w f : List ℕ}
    (hne : w ≠ [])
    (hw : ∀ d ∈ w, d < 10)
    (hf : ∀ d ∈ f, d < 10) :
    scan (w.map digitChar ++ fractionText f) = some ⟨value 10 (w ++ f), -f.length⟩ := by
  obtain ⟨htake, hdrop, hscan⟩ := scanFraction_fractionText hf
  obtain ⟨d, l, hdl⟩ := List.exists_cons_of_ne_nil hne
  obtain ⟨-, -, hspace, hminus, hplus⟩ := digitChar_spec (hw d (hdl ▸ List.mem_cons_self))
  have hsign : scanSign ((w.map digitChar ++ fractionText f).dropWhile isSpace) =
      (1, w.map digitChar ++ fractionText f) := by
    rw [hdl, List.map_cons, List.cons_append, List.dropWhile_cons_of_neg (by rw [hspace]; decide),
      scanSign, if_neg hminus, if_neg hplus]
  have hnumber : number (w.map digitChar ++ f.map digitChar) = value 10 (w ++ f) := by
    rw [← List.map_append, number_digitChar]
    exact fun d hd => (List.mem_append.mp hd).elim (hw d) (hf d)
  rw [scan, hsign]
  dsimp only
  rw [takeWhile_digits hw htake, dropWhile_digits hw hdrop, hscan]
  dsimp only
  rw [if_neg (fun h => hne (List.map_eq_nil_iff.mp h.1)), hnumber, List.length_map, scanExponent,
    one_mul, zero_sub]

/-- A number with `places` places behind the point, as it is printed. -/
theorem print_eq
    (n places : ℕ) :
    print ⟨n, -places⟩ = (wholeDigits (n / 10 ^ places)).map digitChar ++
      fractionText (dropZeros (digits 10 n places)) := by
  rw [print, fractionText]
  dsimp only
  rw [if_neg (by omega), neg_neg, Int.toNat_natCast, Int.natAbs_natCast,
    (by omega : (-(places : ℤ)).toNat = 0), pow_zero, Nat.mul_one, List.nil_append]

theorem dropZeros_lt
    (n places : ℕ) :
    ∀ d ∈ dropZeros (digits 10 n places), d < 10 := by
  intro d hd
  have hmem := (List.dropWhile_sublist _).subset (List.mem_reverse.mp hd)
  exact Digits.digits_lt (by decide) n places d (List.mem_reverse.mp hmem)

/-- The number as it is scanned again. -/
theorem scan_print
    (n places : ℕ) :
    ∃ (m : ℕ) (z : ℕ), scan (print ⟨n, -places⟩) = some ⟨m, (z : ℤ) - places⟩ ∧ z ≤ places ∧
      m * 10 ^ z = n := by
  obtain ⟨hne, hw, hwhole⟩ := wholeDigits_spec (n / 10 ^ places)
  obtain ⟨z, hz⟩ := exists_replicate_dropZeros (digits 10 n places)
  have hlen := congrArg List.length hz
  rw [Digits.length_digits, List.length_append, List.length_replicate] at hlen
  refine ⟨value 10 (wholeDigits (n / 10 ^ places) ++ dropZeros (digits 10 n places)), z, ?_,
    by omega, ?_⟩
  · rw [print_eq, scan_digits hne hw (dropZeros_lt n places)]
    exact congrArg (fun e => some (Decimal.mk _ e)) (by omega)
  · have hfrac := Digits.value_digits 10 n places
    rw [hz, value_append_zeros] at hfrac
    calc value 10 (wholeDigits (n / 10 ^ places) ++ dropZeros (digits 10 n places)) * 10 ^ z
        = n / 10 ^ places * 10 ^ ((dropZeros (digits 10 n places)).length + z) +
            value 10 (dropZeros (digits 10 n places)) * 10 ^ z := by
          rw [Digits.value_append, hwhole, Nat.add_mul, Nat.mul_assoc, ← pow_add]
      _ = n / 10 ^ places * 10 ^ places + n % 10 ^ places := by rw [hfrac, ← hlen]
      _ = n := by rw [Nat.mul_comm]; exact Nat.div_add_mod n _

/-- A number that is printed with places behind the point is the same number of the
smallest units. -/
theorem uint64_scan_print
    {n : ℕ} (places : ℕ)
    (hn : n < 2 ^ 64) :
    (scan (print (Decimal.scale ⟨n, 0⟩ (-places)))).map
      (fun d => (d.scale places).uint64) = some n := by
  obtain ⟨m, z, hscan, -, hm⟩ := scan_print n places
  rw [Decimal.scale, zero_add, hscan, Option.map_some, Decimal.scale, Decimal.uint64]
  dsimp only
  rw [sub_add_cancel, Int.toNat_natCast, (by omega : (-(z : ℤ)).toNat = 0), pow_zero, Int.tdiv_one]
  have hmz : (m : ℤ) * 10 ^ z = n := by exact_mod_cast hm
  rw [hmz, Int.emod_eq_of_lt (by omega) (by omega), Int.toNat_natCast]

theorem print_ne_nil
    (n places : ℕ) :
    print ⟨n, -places⟩ ≠ [] := by
  obtain ⟨hne, -, -⟩ := wholeDigits_spec (n / 10 ^ places)
  rw [print_eq]
  exact fun h => hne (List.map_eq_nil_iff.mp (List.append_eq_nil_iff.mp h).1)

/-- What is printed has digits and points only. -/
theorem print_chars
    {n places : ℕ} {c : Char}
    (hc : c ∈ print ⟨n, -places⟩) :
    (∃ d < 10, c = digitChar d) ∨ c = '.' := by
  obtain ⟨-, hw, -⟩ := wholeDigits_spec (n / 10 ^ places)
  rw [print_eq, fractionText] at hc
  rcases List.mem_append.mp hc with hc | hc
  · obtain ⟨d, hd, rfl⟩ := List.mem_map.mp hc
    exact Or.inl ⟨d, hw d hd, rfl⟩
  · split_ifs at hc with h
    · exact absurd hc List.not_mem_nil
    · rcases List.mem_cons.mp hc with rfl | hc
      · exact Or.inr rfl
      · obtain ⟨d, hd, rfl⟩ := List.mem_map.mp hc
        exact Or.inl ⟨d, dropZeros_lt n places d hd, rfl⟩

end DecimalText
