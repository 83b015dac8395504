import BreadwalletCore.Address.Bech32

/-!
# Bech32 strings there and back

`BRBech32Encode` limits the bytes of the program and not the characters they
become, so some programs are written past `addr[91]`; all other results are
decoded to what was encoded.  `BRBech32Decode` ignores the bits that pad the last
digit, so a string is the encoding of its result only if they are zero.
-/

namespace BreadwalletCore

open Digits (value digits)
open Base58 (bytesOf byteDigits)

namespace Bech32

/-! ## The digits of a string -/

/-- The digits of some characters, if all of them are in the alphabet. -/
def digitsOf : List UInt8 → Option (List ℕ)
  | [] => some []
  | ch :: rest =>
      match bech32Digit (tolower ch) with
      | none => none
      | some c => (digitsOf rest).map (c :: ·)

/-- The digit loop of `BRBech32Decode`, on digits. -/
def decodeDigits (addrLen sep : ℕ) (i : ℕ) (d : Decoder) : List ℕ → Decoder
  | [] => d
  | c :: rest =>
      let chk := polymod d.chk ^^^ UInt32.ofNat c
      if i = sep + 1 then decodeDigits addrLen sep (i + 1) { d with chk := chk, ver := c } rest
      else if i + 6 ≥ addrLen then decodeDigits addrLen sep (i + 1) { d with chk := chk } rest
      else
        decodeDigits addrLen sep (i + 1)
          { d with chk := chk, buf := regroup d.buf (i - (sep + 2)) c } rest

theorem digitLoop_eq
    (addrLen sep i : ℕ) (d : Decoder) (l : List UInt8) :
    digitLoop addrLen sep i d l = (digitsOf l).map (decodeDigits addrLen sep i d) := by
  induction l generalizing i d with
  | nil =>
      rfl
  | cons ch l ih =>
      rw [digitLoop, digitsOf]
      cases hdigit : bech32Digit (tolower ch) with
      | none =>
          rfl
      | some c =>
          dsimp only
          rw [ih, ih, ih, Option.map_map]
          by_cases hfirst : i = sep + 1
          · rw [if_pos hfirst]
            congr 1
            funext l
            rw [Function.comp_apply, decodeDigits, if_pos hfirst]
          · rw [if_neg hfirst]
            by_cases hcheck : i + 6 ≥ addrLen
            · rw [if_pos hcheck]
              congr 1
              funext l
              rw [Function.comp_apply, decodeDigits, if_neg hfirst, if_pos hcheck]
            · rw [if_neg hcheck]
              congr 1
              funext l
              rw [Function.comp_apply, decodeDigits, if_neg hfirst, if_neg hcheck]

/-- The bits of some digits, put in `buf` from index `j` on. -/
def regroups (buf : List UInt8) (j : ℕ) : List ℕ → List UInt8
  | [] => buf
  | c :: l => regroups (regroup buf j c) (j + 1) l

theorem decodeDigits_check
    {addrLen sep i : ℕ} {d : Decoder} {l : List ℕ}
    (hi : sep + 1 < i)
    (hcheck : addrLen ≤ i + 6) :
    decodeDigits addrLen sep i d l = { d with chk := LinearChecksum.run polymod d.chk l } := by
  induction l generalizing i d with
  | nil =>
      rfl
  | cons c l ih =>
      rw [decodeDigits, if_neg (by omega), if_pos hcheck, ih (by omega) (by omega)]
      rfl

theorem decodeDigits_data
    {addrLen sep i : ℕ} {d : Decoder} {l rest : List ℕ}
    (hi : sep + 1 < i)
    (hdata : i + l.length + 6 ≤ addrLen) :
    decodeDigits addrLen sep i d (l ++ rest) =
      decodeDigits addrLen sep (i + l.length)
        { d with
          chk := LinearChecksum.run polymod d.chk l
          buf := regroups d.buf (i - (sep + 2)) l } rest := by
  induction l generalizing i d with
  | nil =>
      rfl
  | cons c l ih =>
      rw [List.length_cons] at hdata
      rw [List.cons_append, decodeDigits, if_neg (by omega), if_neg (by omega),
        ih (by omega) (by omega), List.length_cons,
        show i + 1 + l.length = i + (l.length + 1) by omega,
        show i + 1 - (sep + 2) = i - (sep + 2) + 1 by omega]
      rfl

/-- The whole loop: a version, the digits of the program and six of the
checksum. -/
theorem decodeDigits_eq
    {addrLen sep : ℕ} {d : Decoder} {v : ℕ} {l check : List ℕ}
    (hlen : addrLen = sep + 2 + l.length + 6) :
    decodeDigits addrLen sep (sep + 1) d (v :: (l ++ check)) =
      ⟨LinearChecksum.run polymod d.chk (v :: (l ++ check)), v, regroups d.buf 0 l⟩ := by
  rw [decodeDigits, if_pos rfl, decodeDigits_data (by omega) (by omega),
    decodeDigits_check (by omega) (by omega), LinearChecksum.run_cons, LinearChecksum.run_append,
    Nat.sub_self]

/-! ## Digits regrouped to bytes -/

theorem orAt_append
    (l rest : List UInt8) (t : UInt8) (v : ℕ) :
    orAt (l ++ t :: rest) l.length v = l ++ (t ||| UInt8.ofNat v) :: rest := by
  rw [orAt, List.getD_append_right _ _ _ _ le_rfl, Nat.sub_self, List.getD_cons_zero,
    List.set_append_right _ _ le_rfl, Nat.sub_self, List.set_cons_zero]

theorem regroup_index
    (j : ℕ) :
    j / 8 * 5 + j % 8 * 5 / 8 = 5 * j / 8 := by
  omega

theorem regroup_shift
    (j : ℕ) :
    j % 8 * 5 - j % 8 * 5 / 8 * 8 = 5 * j % 8 := by
  omega

/-- `buf` after some digits with the number `w`: the bytes they fill, the byte
they begin, and zeros. -/
def grouped (w j : ℕ) : List UInt8 :=
  bytesOf (digits 256 (w / 2 ^ (5 * j % 8)) (5 * j / 8)) ++
    UInt8.ofNat (w % 2 ^ (5 * j % 8) * 2 ^ (8 - 5 * j % 8)) ::
      List.replicate (51 - 5 * j / 8) 0

/-- Bits put in the byte they complete, or a part of it. -/
theorem or_digit
    {w x c : ℕ}
    (hx : x < 8)
    (hc : c < 32) :
    w % 2 ^ x * 2 ^ (8 - x) ||| ((c <<< 3) >>> x) = w % 2 ^ x * 2 ^ (8 - x) + c * 8 / 2 ^ x := by
  have hlt : (c <<< 3) >>> x < 2 ^ (8 - x) := by
    rw [Nat.shiftLeft_eq, Nat.shiftRight_eq_div_pow, Nat.div_lt_iff_lt_mul (Nat.two_pow_pos _),
      ← pow_add, show 8 - x + x = 8 by omega]
    omega
  rw [← Nat.shiftLeft_eq, ← Nat.shiftLeft_add_eq_or_of_lt hlt, Nat.shiftRight_eq_div_pow,
    Nat.shiftLeft_eq c 3]

theorem regroup_grouped
    {w j c : ℕ}
    (hc : c < 32)
    (hj : j < 81) :
    regroup (grouped w j) j c = grouped (32 * w + c) (j + 1) := by
  obtain ⟨x, hx⟩ : ∃ x, 5 * j % 8 = x := ⟨_, rfl⟩
  obtain ⟨q, hq⟩ : ∃ q, 5 * j / 8 = q := ⟨_, rfl⟩
  have hx8 : x < 8 := by omega
  obtain ⟨l, hl⟩ : ∃ l, bytesOf (digits 256 (w / 2 ^ x) q) = l := ⟨_, rfl⟩
  have hlen : l.length = q := by rw [← hl, bytesOf, List.length_map, Digits.length_digits]
  have hfirst : orAt (grouped w j) q ((c <<< 3) >>> x) =
      l ++ UInt8.ofNat (w % 2 ^ x * 2 ^ (8 - x) + c * 8 / 2 ^ x) :: List.replicate (51 - q) 0 := by
    rw [grouped, hx, hq, hl, ← hlen, orAt_append, ← UInt8.ofNat_or, or_digit hx8 hc]
  obtain ⟨k, hk⟩ : ∃ k, 51 - q = k + 1 := ⟨50 - q, by omega⟩
  rw [regroup, regroup_index, regroup_shift, hx, hq, hfirst]
  by_cases hlow : x < 3
  · -- the digit fits in the byte
    rw [if_neg (by omega), grouped, show 5 * (j + 1) % 8 = x + 5 by omega,
      show 5 * (j + 1) / 8 = q by omega]
    have hquot : (32 * w + c) / 2 ^ (x + 5) = w / 2 ^ x := by
      interval_cases x <;> norm_num <;> omega
    have hrest : (32 * w + c) % 2 ^ (x + 5) * 2 ^ (8 - (x + 5)) =
        w % 2 ^ x * 2 ^ (8 - x) + c * 8 / 2 ^ x := by
      interval_cases x <;> norm_num <;> omega
    rw [hquot, hl, hrest]
  · -- it completes the byte, and the rest of it begins the next
    have hbyte : w % 2 ^ x * 2 ^ (8 - x) + c * 8 / 2 ^ x < 256 := by
      interval_cases x <;> norm_num <;> omega
    have hquot : 256 * (w / 2 ^ x) + (w % 2 ^ x * 2 ^ (8 - x) + c * 8 / 2 ^ x) =
        (32 * w + c) / 2 ^ (x - 3) := by
      interval_cases x <;> norm_num <;> omega
    have hfull : l ++ [UInt8.ofNat (w % 2 ^ x * 2 ^ (8 - x) + c * 8 / 2 ^ x)] =
        bytesOf (digits 256 ((32 * w + c) / 2 ^ (x - 3)) (q + 1)) := by
      rw [← hquot, ← Digits.digits_append_singleton hbyte, bytesOf, List.map_append, ← bytesOf, hl,
        List.map_singleton]
    rw [grouped, show 5 * (j + 1) % 8 = x - 3 by omega, show 5 * (j + 1) / 8 = q + 1 by omega,
      ← hfull, hk, List.replicate_succ, show 51 - (q + 1) = k by omega, List.append_assoc,
      List.singleton_append]
    by_cases h3 : x = 3
    · subst h3
      rw [if_neg (by omega), Nat.sub_self, pow_zero, Nat.mod_one, Nat.zero_mul]
      rfl
    · rw [if_pos (by omega), ← List.singleton_append, ← List.append_assoc]
      have hnext : UInt8.ofNat (c <<< (11 - x)) =
          UInt8.ofNat ((32 * w + c) % 2 ^ (x - 3) * 2 ^ (8 - (x - 3))) := by
        refine UInt8.toNat_inj.mp ?_
        rw [UInt8.toNat_ofNat', UInt8.toNat_ofNat', Nat.shiftLeft_eq]
        interval_cases x <;> norm_num <;> omega
      have hlen' : (l ++ [UInt8.ofNat (w % 2 ^ x * 2 ^ (8 - x) + c * 8 / 2 ^ x)]).length =
          q + 1 := by
        rw [List.length_append, hlen, List.length_singleton]
      rw [← hlen', orAt_append, UInt8.zero_or, hnext, List.append_assoc, List.singleton_append]

theorem regroups_append_singleton
    (buf : List UInt8) (j : ℕ) (l : List ℕ) (c : ℕ) :
    regroups buf j (l ++ [c]) = regroup (regroups buf j l) (j + l.length) c := by
  induction l generalizing buf j with
  | nil =>
      rfl
  | cons d l ih =>
      rw [List.cons_append, regroups, ih, List.length_cons, regroups,
        show j + 1 + l.length = j + (l.length + 1) by omega]

/-- The buffer holds the number that the digits stand for. -/
theorem regroups_eq
    {l : List ℕ}
    (hl : ∀ d ∈ l, d < 32)
    (hlen : l.length ≤ 81) :
    regroups (List.replicate 52 0) 0 l = grouped (value 32 l) l.length := by
  induction l using List.reverseRecOn with
  | nil =>
      rfl
  | append_singleton l c ih =>
      rw [List.length_append, List.length_singleton] at hlen
      rw [regroups_append_singleton, ih (fun d hd => hl d (List.mem_append_left _ hd)) (by omega),
        Nat.zero_add, regroup_grouped (hl c (by simp)) (by omega), Digits.value_append,
        Digits.value_singleton, List.length_append, List.length_singleton, pow_one, Nat.mul_comm]

/-- The bytes that some digits fill. -/
def programOf (l : List ℕ) : List UInt8 :=
  bytesOf (digits 256 (value 32 l / 2 ^ (5 * l.length % 8)) (5 * l.length / 8))

theorem length_programOf
    (l : List ℕ) :
    (programOf l).length = 5 * l.length / 8 := by
  rw [programOf, bytesOf, List.length_map, Digits.length_digits]

theorem take_grouped
    (l : List ℕ) :
    (grouped (value 32 l) l.length).take (5 * l.length / 8) = programOf l := by
  rw [grouped, ← programOf, ← length_programOf, List.take_left]

/-! ## What is decoded -/

theorem bech32Digit_spec :
    ∀ n < 256, ∀ c ∈ bech32Digit (UInt8.ofNat n), c < 32 ∧ chars.getD c 0 = UInt8.ofNat n := by
  decide +kernel

theorem getD_bech32Digit
    {ch : UInt8} {c : ℕ}
    (h : bech32Digit ch = some c) :
    c < 32 ∧ chars.getD c 0 = ch :=
  forall_byte (P := fun ch => ∀ c ∈ bech32Digit ch, c < 32 ∧ chars.getD c 0 = ch)
    bech32Digit_spec ch c h

theorem digitsOf_cons_iff
    {ch : UInt8} {rest : List UInt8} {ds : List ℕ} :
    digitsOf (ch :: rest) = some ds ↔
      ∃ c l, bech32Digit (tolower ch) = some c ∧ digitsOf rest = some l ∧ ds = c :: l := by
  rw [digitsOf]
  cases bech32Digit (tolower ch) with
  | none =>
      simp
  | some c =>
      simp only [Option.map_eq_some_iff, Option.some.injEq]
      constructor
      · rintro ⟨l, hl, rfl⟩
        exact ⟨c, l, rfl, hl, rfl⟩
      · rintro ⟨_, l, rfl, hl, rfl⟩
        exact ⟨l, hl, rfl⟩

/-- The characters in lower case are those of the digits. -/
theorem digitsOf_spec
    {s : List UInt8} {l : List ℕ}
    (h : digitsOf s = some l) :
    (∀ d ∈ l, d < 32) ∧ s.map tolower = text l := by
  induction s generalizing l with
  | nil =>
      obtain rfl : [] = l := Option.some.inj h
      exact ⟨fun d hd => absurd hd List.not_mem_nil, rfl⟩
  | cons ch s ih =>
      obtain ⟨c, l, hc, hl, rfl⟩ := digitsOf_cons_iff.mp h
      obtain ⟨hlt, hchar⟩ := getD_bech32Digit hc
      obtain ⟨ihlt, ihtext⟩ := ih hl
      constructor
      · intro d hd
        rcases List.mem_cons.mp hd with rfl | hd
        · exact hlt
        · exact ihlt d hd
      · rw [List.map_cons, ihtext, ← hchar]
        rfl

theorem digitsOf_length
    {s : List UInt8} {l : List ℕ}
    (h : digitsOf s = some l) :
    l.length = s.length := by
  have htext := congrArg List.length (digitsOf_spec h).2
  rwa [List.length_map, text, List.length_map, eq_comm] at htext

/-- The characters that a string may have. -/
def printable (addr : List UInt8) : Prop :=
  (addr.any fun c => c < 33 || c > 126) = false ∧
    (addr.any isupper && addr.any islower) = false

/-- The version in front, and the checksum behind the digits of the program. -/
theorem exists_parts
    {ds : List ℕ}
    (h : 7 ≤ ds.length) :
    ∃ v l check, ds = v :: (l ++ check) ∧ check.length = 6 := by
  cases ds with
  | nil =>
      rw [List.length_nil] at h
      omega
  | cons v ds =>
      rw [List.length_cons] at h
      refine ⟨v, ds.take (ds.length - 6), ds.drop (ds.length - 6), ?_, ?_⟩
      · rw [List.take_append_drop]
      · rw [List.length_drop]
        omega

theorem parts_inj
    {v v' : ℕ} {l l' check check' : List ℕ}
    (h : v :: (l ++ check) = v' :: (l' ++ check'))
    (hlen : l.length = l'.length) :
    v = v' ∧ l = l' ∧ check = check' := by
  obtain ⟨hv, hrest⟩ := List.cons.inj h
  exact ⟨hv, List.append_inj hrest hlen⟩

/-- A string is accepted if it has a separator, a version, the digits of a
program of a size allowed and the checksum for them. -/
theorem BRBech32Decode_eq_some_iff
    {addr hrp data : List UInt8} :
    BRBech32Decode addr = some (hrp, data) ↔
      printable addr ∧ addr.length ≤ 90 ∧ ∃ sep v l check,
        sepLoop addr addr.length = sep ∧ 1 ≤ sep ∧ addr.length = sep + 2 + l.length + 6 ∧
        check.length = 6 ∧ digitsOf (addr.drop (sep + 1)) = some (v :: (l ++ check)) ∧
        LinearChecksum.run polymod (hrpChk (addr.take sep)) (v :: (l ++ check)) = 1 ∧
        v ≤ 16 ∧ 2 ≤ 5 * l.length / 8 ∧ 5 * l.length / 8 ≤ 40 ∧
        hrp = (addr.take sep).map tolower ∧
        data = versionOp v :: UInt8.ofNat (5 * l.length / 8) :: programOf l := by
  obtain ⟨sep, hsep⟩ : ∃ sep, sepLoop addr addr.length = sep := ⟨_, rfl⟩
  rw [BRBech32Decode, printable, hsep]
  by_cases hchars : (addr.any fun c => c < 33 || c > 126) = true
  · rw [if_pos hchars, hchars]
    simp
  rw [if_neg hchars]
  rw [Bool.not_eq_true] at hchars
  simp only [hsep]
  by_cases hguard : addr.length < 8 ∨ addr.length > 90 ∨ sep < 1 ∨ sep + 2 + 6 > addr.length ∨
      (addr.any isupper && addr.any islower) = true
  · rw [if_pos hguard]
    constructor
    · intro h
      exact absurd h (by simp)
    · rintro ⟨⟨-, hcase⟩, h90, sep', v, l, check, rfl, h1, hlen, -⟩
      rw [hcase] at hguard
      simp only [Bool.false_eq_true, or_false] at hguard
      omega
  rw [if_neg hguard, digitLoop_eq]
  simp only [not_or, Bool.not_eq_true] at hguard
  obtain ⟨h8, h90, h1, hroom, hcase⟩ := hguard
  cases hdigits : digitsOf (addr.drop (sep + 1)) with
  | none =>
      simp only [Option.map_none]
      constructor
      · intro h
        exact absurd h (by simp)
      · rintro ⟨-, -, sep', v, l, check, rfl, -, -, -, h, -⟩
        rw [hdigits] at h
        exact absurd h (by simp)
  | some ds =>
      have hdslen := digitsOf_length hdigits
      rw [List.length_drop] at hdslen
      obtain ⟨v, l, check, rfl, hcheck⟩ := exists_parts (show 7 ≤ ds.length by omega)
      rw [List.length_cons, List.length_append] at hdslen
      have hlen : addr.length = sep + 2 + l.length + 6 := by omega
      have hlt : ∀ d ∈ l, d < 32 := fun d hd =>
        (digitsOf_spec hdigits).1 d (by simp [hd])
      have hbufLen : (addr.length - (sep + 2 + 6)) * 5 / 8 = 5 * l.length / 8 := by omega
      have hbuf : (regroups (List.replicate 52 0) 0 l).take (5 * l.length / 8) = programOf l := by
        rw [regroups_eq hlt (by omega), take_grouped]
      simp only [Option.map_some, decodeDigits_eq hlen, hbufLen, hbuf]
      by_cases hbad : LinearChecksum.run polymod (hrpChk (addr.take sep)) (v :: (l ++ check)) ≠ 1 ∨
          v > 16 ∨ 5 * l.length / 8 < 2 ∨ 5 * l.length / 8 > 40
      · rw [if_pos hbad]
        constructor
        · intro h
          exact absurd h (by simp)
        · rintro ⟨-, -, sep', v', l', check', rfl, -, hlen', hcheck', h, hone, h16, h2, h40, -⟩
          rw [hdigits, Option.some.injEq] at h
          obtain ⟨rfl, rfl, rfl⟩ := parts_inj h (by omega)
          rcases hbad with hbad | hbad | hbad | hbad
          · exact absurd hone hbad
          all_goals omega
      · rw [if_neg hbad]
        simp only [not_or, not_not] at hbad
        obtain ⟨hone, h16, h2, h40⟩ := hbad
        constructor
        · intro h
          obtain ⟨rfl, rfl⟩ := Prod.mk.inj (Option.some.inj h)
          exact ⟨⟨hchars, hcase⟩, by omega, sep, v, l, check, rfl, by omega, hlen, hcheck, hdigits,
            hone, by omega, by omega, by omega, rfl, rfl⟩
        · rintro ⟨-, -, sep', v', l', check', rfl, -, hlen', hcheck', h, -, -, -, -, rfl, rfl⟩
          rw [hdigits, Option.some.injEq] at h
          obtain ⟨rfl, rfl, rfl⟩ := parts_inj h (by omega)
          rfl

/-! ## The string of an encoding -/

theorem chars_spec :
    ∀ d < 32, tolower (chars.getD d 0) = chars.getD d 0 ∧
      bech32Digit (chars.getD d 0) = some d ∧ chars.getD d 0 ≠ 0x31 ∧
      33 ≤ chars.getD d 0 ∧ chars.getD d 0 ≤ 126 ∧ isupper (chars.getD d 0) = false := by
  decide +kernel

theorem digitsOf_text
    {l : List ℕ}
    (hl : ∀ d ∈ l, d < 32) :
    digitsOf (text l) = some l := by
  induction l with
  | nil =>
      rfl
  | cons d l ih =>
      obtain ⟨hlower, hdigit, -⟩ := chars_spec d (hl d (by simp))
      refine digitsOf_cons_iff.mpr ⟨d, l, ?_, ih (fun c hc => hl c (by simp [hc])), rfl⟩
      rw [hlower, hdigit]

theorem text_ne_one
    {l : List ℕ}
    (hl : ∀ d ∈ l, d < 32) :
    ∀ c ∈ text l, c ≠ 0x31 ∧ hrpChar c := by
  intro c hc
  obtain ⟨d, hd, rfl⟩ := List.mem_map.mp hc
  obtain ⟨-, -, hone, h33, h126, hupper⟩ := chars_spec d (hl d hd)
  exact ⟨hone, h33, h126, hupper⟩

/-- The separator is the last one. -/
theorem sepLoop_append
    {hrp rest : List UInt8}
    (hhrp : 1 ≤ hrp.length)
    (hrest : ∀ c ∈ rest, c ≠ 0x31)
    {n : ℕ}
    (hn : n ≤ rest.length + 1) :
    sepLoop (hrp ++ 0x31 :: rest) (hrp.length + n) = hrp.length := by
  induction n with
  | zero =>
      obtain ⟨k, hk⟩ : ∃ k, hrp.length = k + 1 := ⟨hrp.length - 1, by omega⟩
      rw [Nat.add_zero, hk, sepLoop, ← hk, List.getD_append_right _ _ _ _ le_rfl, Nat.sub_self,
        List.getD_cons_zero, if_pos rfl]
  | succ n ih =>
      rw [← Nat.add_assoc, sepLoop, if_neg, ih (by omega)]
      rw [List.getD_append_right _ _ _ _ (by omega), show hrp.length + n + 1 - hrp.length = n + 1 by
        omega, List.getD_cons_succ]
      by_cases hlt : n < rest.length
      · rw [List.getD_eq_getElem _ _ hlt]
        exact hrest _ (List.getElem_mem hlt)
      · rw [List.getD_eq_default _ _ (by omega)]
        decide

theorem length_address
    (hrp : List UInt8) (l : List ℕ) :
    (address hrp l).length = hrp.length + 1 + l.length := by
  rw [address, List.length_append, List.length_cons, text, List.length_map]
  omega

theorem printable_of_hrpChar
    {addr : List UInt8}
    (h : ∀ c ∈ addr, hrpChar c) :
    printable addr := by
  constructor
  · rw [List.any_eq_false]
    intro c hc
    obtain ⟨h33, h126, -⟩ := h c hc
    simp only [Bool.or_eq_true, decide_eq_true_eq, not_or]
    exact ⟨UInt8.not_lt.mpr h33, UInt8.not_lt.mpr h126⟩
  · rw [Bool.and_eq_false_iff]
    refine .inl (List.any_eq_false.mpr (fun c hc => ?_))
    rw [(h c hc).2.2]
    exact Bool.false_ne_true

theorem hrpChar_address
    {hrp : List UInt8} {l : List ℕ}
    (hhrp : ∀ c ∈ hrp, hrpChar c)
    (hl : ∀ d ∈ l, d < 32) :
    ∀ c ∈ address hrp l, hrpChar c := by
  intro c hc
  rw [address, List.mem_append, List.mem_cons] at hc
  rcases hc with hc | rfl | hc
  · exact hhrp c hc
  · exact ⟨by decide, by decide, by decide⟩
  · exact (text_ne_one hl c hc).2

/-! ## Programs there and back -/

theorem programDigits_lt
    (program : List UInt8) :
    ∀ d ∈ programDigits program, d < 32 :=
  Digits.digits_lt (by omega) _ _

/-- The number of a program with its padding. -/
theorem value_programDigits
    (program : List UInt8) :
    value 32 (programDigits program) =
      value 256 (byteDigits program) * 2 ^ ((5 - 8 * program.length % 5) % 5) := by
  have hlt := Digits.value_lt (b := 256) (by omega) (Base58.byteDigits_lt program)
  rw [byteDigits, List.length_map, ← byteDigits] at hlt
  rw [programDigits, Digits.value_digits, Nat.mod_eq_of_lt]
  calc value 256 (byteDigits program) * 2 ^ ((5 - 8 * program.length % 5) % 5)
      < 256 ^ program.length * 2 ^ ((5 - 8 * program.length % 5) % 5) :=
        Nat.mul_lt_mul_of_pos_right hlt (Nat.two_pow_pos _)
    _ = 2 ^ (8 * program.length + (5 - 8 * program.length % 5) % 5) := by
        rw [pow_add, pow_mul]
        norm_num
    _ = 2 ^ (5 * ((8 * program.length + 4) / 5)) := by
        congr 1
        omega
    _ = 32 ^ ((8 * program.length + 4) / 5) := by
        rw [pow_mul]
        norm_num

theorem programOf_programDigits
    (program : List UInt8) :
    programOf (programDigits program) = program := by
  have hbits : 5 * ((8 * program.length + 4) / 5) =
      8 * program.length + (5 - 8 * program.length % 5) % 5 := by
    omega
  have hmod : 5 * ((8 * program.length + 4) / 5) % 8 = (5 - 8 * program.length % 5) % 5 := by
    omega
  have hdiv : 5 * ((8 * program.length + 4) / 5) / 8 = program.length := by
    omega
  rw [programOf, value_programDigits, length_programDigits, hmod, hdiv,
    Nat.mul_div_cancel _ (Nat.two_pow_pos _)]
  have hdigits := Digits.digits_value (b := 256) (by omega) (Base58.byteDigits_lt program)
  rw [byteDigits, List.length_map, ← byteDigits] at hdigits
  rw [hdigits, Base58.bytesOf_byteDigits]

/-- The bits that pad the last digit are zeros, and they are fewer than a digit. -/
def Padded (l : List ℕ) : Prop :=
  5 * l.length % 8 < 5 ∧ value 32 l % 2 ^ (5 * l.length % 8) = 0

instance (l : List ℕ) : Decidable (Padded l) :=
  inferInstanceAs (Decidable (5 * l.length % 8 < 5 ∧ value 32 l % 2 ^ (5 * l.length % 8) = 0))

theorem value_programOf
    {l : List ℕ}
    (hl : ∀ d ∈ l, d < 32) :
    value 256 (byteDigits (programOf l)) = value 32 l / 2 ^ (5 * l.length % 8) := by
  have hlt := Digits.value_lt (b := 32) (by omega) hl
  rw [programOf, Base58.byteDigits_bytesOf (Digits.digits_lt (by omega) _ _), Digits.value_digits,
    Nat.mod_eq_of_lt]
  rw [Nat.div_lt_iff_lt_mul (Nat.two_pow_pos _)]
  calc value 32 l < 32 ^ l.length := hlt
    _ = 2 ^ (8 * (5 * l.length / 8) + 5 * l.length % 8) := by
        rw [Nat.div_add_mod, pow_mul]
        norm_num
    _ = 256 ^ (5 * l.length / 8) * 2 ^ (5 * l.length % 8) := by
        rw [pow_add, pow_mul]
        norm_num

theorem programDigits_programOf_iff
    {l : List ℕ}
    (hl : ∀ d ∈ l, d < 32) :
    programDigits (programOf l) = l ↔ Padded l := by
  have hlen : (programDigits (programOf l)).length = (8 * (5 * l.length / 8) + 4) / 5 := by
    rw [length_programDigits, length_programOf]
  constructor
  · intro h
    have hvalue := congrArg (value 32) h
    have hlength := congrArg List.length h
    rw [value_programDigits, value_programOf hl, length_programOf] at hvalue
    rw [hlen] at hlength
    have hfew : 5 * l.length % 8 < 5 := by omega
    refine ⟨hfew, ?_⟩
    rw [show (5 - 8 * (5 * l.length / 8) % 5) % 5 = 5 * l.length % 8 by omega] at hvalue
    rw [← hvalue, Nat.mul_mod_left]
  · rintro ⟨hfew, hzero⟩
    refine Digits.value_inj (b := 32) (by omega) (by omega) (programDigits_lt _) hl ?_
    rw [value_programDigits, value_programOf hl, length_programOf,
      show (5 - 8 * (5 * l.length / 8) % 5) % 5 = 5 * l.length % 8 by omega]
    exact Nat.div_mul_cancel (Nat.dvd_of_mod_eq_zero hzero)

theorem hrpChk_map_tolower
    (s : List UInt8) :
    hrpChk (s.map tolower) = hrpChk s := by
  have hlow : ∀ c, tolower c &&& 0x1f = c &&& 0x1f := forall_byte (by decide +kernel)
  have hidem : ∀ c, tolower (tolower c) = tolower c := forall_byte (by decide +kernel)
  rw [hrpChk, hrpChk, List.foldl_map, List.foldl_map]
  simp only [hlow, hidem]

theorem payload_lt
    (hrp program : List UInt8) {ver : ℕ}
    (hver : ver < 32) :
    ∀ d ∈ payload hrp ver program, d < 32 := by
  intro d hd
  rw [payload, List.mem_append, List.mem_cons] at hd
  rcases hd with (rfl | hd) | hd
  · exact hver
  · exact programDigits_lt program d hd
  · exact Digits.digits_lt (by omega) _ _ d hd

theorem length_payload
    (hrp program : List UInt8) (ver : ℕ) :
    (payload hrp ver program).length = (8 * program.length + 4) / 5 + 7 := by
  rw [payload, List.length_append, List.length_cons, length_programDigits, checkDigits,
    Digits.length_digits]

/-- A string that is written is decoded to what it was written for. -/
theorem decode_address
    {hrp program : List UInt8} {op : UInt8}
    (hhrp : ∀ c ∈ hrp, hrpChar c)
    (hpos : 1 ≤ hrp.length)
    (hop : IsVersionOp op)
    (hlen : 2 ≤ program.length)
    (hlen' : program.length ≤ 40)
    (hfit : hrp.length + (8 * program.length + 4) / 5 ≤ 82) :
    BRBech32Decode (address hrp (payload hrp (opVersion op).toNat program)) =
      some (hrp, op :: UInt8.ofNat program.length :: program) := by
  obtain ⟨-, h16, hversion⟩ := isVersionOp_spec hop
  have hver : (opVersion op).toNat ≤ 16 := UInt8.le_iff_toNat_le.mp (UInt8.not_lt.mp h16)
  have hlt := payload_lt hrp program (show (opVersion op).toNat < 32 by omega)
  have hlength := length_address hrp (payload hrp (opVersion op).toNat program)
  rw [length_payload] at hlength
  have hsep : sepLoop (address hrp (payload hrp (opVersion op).toNat program))
      (address hrp (payload hrp (opVersion op).toNat program)).length = hrp.length := by
    rw [hlength, Nat.add_assoc]
    refine sepLoop_append hpos (fun c hc => (text_ne_one hlt c hc).1) ?_
    rw [text, List.length_map, length_payload]
    omega
  have htake : (address hrp (payload hrp (opVersion op).toNat program)).take hrp.length = hrp := by
    rw [address, List.take_left]
  have hdrop : (address hrp (payload hrp (opVersion op).toNat program)).drop (hrp.length + 1) =
      text (payload hrp (opVersion op).toNat program) := by
    rw [address, ← List.drop_drop, List.drop_left, List.drop_one, List.tail_cons]
  have hlower : hrp.map tolower = hrp :=
    (List.map_congr_left (fun c hc => tolower_hrpChar (hhrp c hc))).trans (List.map_id hrp)
  have hbytes : 5 * (programDigits program).length / 8 = program.length := by
    rw [length_programDigits]
    omega
  rw [BRBech32Decode_eq_some_iff]
  refine ⟨printable_of_hrpChar (hrpChar_address hhrp hlt), by omega, hrp.length,
    (opVersion op).toNat, programDigits program, checkDigits (LinearChecksum.run polymod
      (hrpChk hrp) ((opVersion op).toNat :: programDigits program)), hsep, hpos, ?_, ?_, ?_, ?_,
    hver, ?_, ?_, ?_, ?_⟩
  · rw [hlength, length_programDigits]
    omega
  · rw [checkDigits, Digits.length_digits]
  · rw [hdrop, digitsOf_text hlt]
    rfl
  · rw [htake, ← List.cons_append, LinearChecksum.run_append]
    exact (run_eq_one_iff (Digits.digits_lt (by omega) _ _) (Digits.length_digits _ _ _) _).mpr rfl
  · rw [hbytes]
    exact hlen
  · rw [hbytes]
    exact hlen'
  · rw [htake, hlower]
  · rw [hversion, hbytes, programOf_programDigits]

/-- `BRBech32Encode` returns 0, or a string that fits and is decoded to the
same. -/
def RoundTrips (hrp data : List UInt8) : Prop :=
  BRBech32Encode hrp data = .error .zero ∨
    ∃ addr, BRBech32Encode hrp data = .ok (addr ++ [0]) ∧ addr.length ≤ 90 ∧
      BRBech32Decode addr = some (hrp, data)

theorem codec_roundTrips_iff
    {hrp program : List UInt8} {op : UInt8}
    (hpos : 1 ≤ hrp.length)
    (hmax : hrp.length ≤ 83)
    (hhrp : ∀ c ∈ hrp, 32 ≤ c ∧ c ≤ 126 ∧ isupper c = false)
    (hop : IsVersionOp op)
    (hlen : 2 ≤ program.length)
    (hlen' : program.length ≤ 40) :
    RoundTrips hrp (op :: UInt8.ofNat program.length :: program) ↔
      0x20 ∈ hrp ∨ 82 < hrp.length + program.length ∨
        hrp.length + (8 * program.length + 4) / 5 ≤ 82 := by
  by_cases hspace : 0x20 ∈ hrp
  · have hbad : ¬∀ c ∈ hrp, hrpChar c := fun h => absurd (h _ hspace).1 (by decide)
    exact iff_of_true (.inl (BRBech32Encode_refused hbad (by omega))) (.inl hspace)
  have hchars : ∀ c ∈ hrp, hrpChar c := by
    intro c hc
    obtain ⟨h32, h126, hupper⟩ := hhrp c hc
    refine ⟨?_, h126, hupper⟩
    have hne : c ≠ 0x20 := fun h => hspace (h ▸ hc)
    have hne' : c.toNat ≠ 32 := fun h => hne (UInt8.toNat_inj.mp h)
    rw [UInt8.le_iff_toNat_le] at h32 ⊢
    exact lt_of_le_of_ne h32 (Ne.symm hne')
  by_cases hlong : 82 < hrp.length + program.length
  · exact iff_of_true (.inl (BRBech32Encode_long hchars hmax hlen' hlong)) (.inr (.inl hlong))
  have hencode := BRBech32Encode_eq hchars hop hlen hlen' (by omega)
  by_cases hfit : hrp.length + (8 * program.length + 4) / 5 ≤ 82
  · rw [if_pos hfit] at hencode
    refine iff_of_true (.inr ⟨_, hencode, ?_, decode_address hchars hpos hop hlen hlen' hfit⟩)
      (.inr (.inr hfit))
    rw [length_address, length_payload]
    omega
  · rw [if_neg hfit] at hencode
    refine iff_of_false ?_ ?_
    · rintro (h | ⟨addr, h, -⟩)
      · rw [hencode] at h
        exact absurd h (by simp)
      · rw [hencode] at h
        exact absurd h (by simp)
    · rintro (h | h | h)
      · exact hspace h
      · exact hlong h
      · exact hfit h

/-! ## Strings there and back -/

/-- The digits of the program in a string. -/
def dataDigits (addr : List UInt8) : List ℕ :=
  let sep := sepLoop addr addr.length
  ((addr.drop (sep + 2)).take (addr.length - (sep + 8))).map
    (fun ch => (bech32Digit (tolower ch)).getD 0)

theorem map_digit_eq
    {s : List UInt8} {l : List ℕ}
    (h : digitsOf s = some l) :
    s.map (fun ch => (bech32Digit (tolower ch)).getD 0) = l := by
  induction s generalizing l with
  | nil =>
      exact Option.some.inj h
  | cons ch s ih =>
      obtain ⟨c, l, hc, hl, rfl⟩ := digitsOf_cons_iff.mp h
      rw [List.map_cons, ih hl, hc, Option.getD_some]

theorem text_inj
    {l l' : List ℕ}
    (hl : ∀ d ∈ l, d < 32)
    (hl' : ∀ d ∈ l', d < 32)
    (h : text l = text l') :
    l = l' := by
  have hdigits := digitsOf_text hl
  rw [h, digitsOf_text hl'] at hdigits
  exact (Option.some.inj hdigits).symm

theorem versionOp_spec :
    ∀ v < 17, IsVersionOp (versionOp v) ∧ (opVersion (versionOp v)).toNat = v := by
  decide +kernel

theorem getD_sepLoop
    (addr : List UInt8) {n : ℕ}
    (h : 1 ≤ sepLoop addr n) :
    addr.getD (sepLoop addr n) 0 = 0x31 := by
  induction n with
  | zero =>
      rw [sepLoop] at h
      exact absurd h (by decide)
  | succ n ih =>
      rw [sepLoop] at h ⊢
      by_cases hone : addr.getD (n + 1) 0 = 0x31
      · rw [if_pos hone]
        exact hone
      · rw [if_neg hone] at h ⊢
        exact ih h

theorem hrpChar_map_tolower
    {addr : List UInt8}
    (h : (addr.any fun c => c < 33 || c > 126) = false) :
    ∀ c ∈ addr.map tolower, hrpChar c := by
  have hspec : ∀ c : UInt8, (decide (c < 33) || decide (c > 126)) = false →
      33 ≤ tolower c ∧ tolower c ≤ 126 ∧ isupper (tolower c) = false :=
    forall_byte (by decide +kernel)
  intro c hc
  obtain ⟨d, hd, rfl⟩ := List.mem_map.mp hc
  exact hspec d (Bool.eq_false_iff.mpr (List.any_eq_false.mp h d hd))

/-- The digits of an encoding are those of a string if the program's are. -/
theorem payload_eq_iff
    {hrp program : List UInt8} {v : ℕ} {l check : List ℕ}
    (hcheck : ∀ d ∈ check, d < 32)
    (hlen : check.length = 6)
    (hone : LinearChecksum.run polymod (hrpChk hrp) (v :: (l ++ check)) = 1) :
    payload hrp v program = v :: (l ++ check) ↔ programDigits program = l := by
  rw [payload, List.cons_append, List.cons.injEq]
  constructor
  · rintro ⟨-, h⟩
    refine (List.append_inj' h ?_).1
    rw [checkDigits, Digits.length_digits, hlen]
  · rintro rfl
    rw [← List.cons_append, LinearChecksum.run_append] at hone
    rw [← (run_eq_one_iff hcheck hlen _).mp hone]
    exact ⟨rfl, rfl⟩

/-- A string that is accepted is the encoding of its result if the bits that pad
its last digit are clear. -/
theorem encode_eq_iff
    {addr hrp data : List UInt8}
    (h : BRBech32Decode addr = some (hrp, data)) :
    BRBech32Encode hrp data = .ok (addr.map tolower ++ [0]) ↔ Padded (dataDigits addr) := by
  obtain ⟨⟨hchars, -⟩, h90, sep, v, l, check, hsep, hpos, hlen, hcheck, hdigits, hone, h16, h2,
    h40, rfl, rfl⟩ := BRBech32Decode_eq_some_iff.mp h
  obtain ⟨hlt, hlower⟩ := digitsOf_spec hdigits
  have hlt' : ∀ d ∈ l, d < 32 := fun d hd => hlt d (by simp [hd])
  have hcheck' : ∀ d ∈ check, d < 32 := fun d hd => hlt d (by simp [hd])
  have hdata : dataDigits addr = l := by
    have hmap := map_digit_eq hdigits
    rw [dataDigits, hsep, show sep + 2 = sep + 1 + 1 by omega, ← List.drop_drop, List.map_take,
      List.map_drop, hmap, List.drop_one, List.tail_cons,
      show addr.length - (sep + 8) = l.length by omega, List.take_left]
  obtain ⟨s, hs⟩ : ∃ s, (addr.take sep).map tolower = s := ⟨_, rfl⟩
  have hslen : s.length = sep := by
    rw [← hs, List.length_map, List.length_take]
    omega
  have hschars : ∀ c ∈ s, hrpChar c := by
    intro c hc
    rw [← hs, List.map_take] at hc
    exact hrpChar_map_tolower hchars c (List.mem_of_mem_take hc)
  have haddr : addr.map tolower = address s (v :: (l ++ check)) := by
    have hsplit : addr = addr.take sep ++ 0x31 :: addr.drop (sep + 1) := by
      have hone := getD_sepLoop addr (n := addr.length) (by rw [hsep]; exact hpos)
      rw [hsep, List.getD_eq_getElem _ _ (by omega)] at hone
      rw [← hone, List.cons_getElem_drop_succ, List.take_append_drop]
    rw [address, ← hlower, ← hs]
    conv_lhs => rw [hsplit, List.map_append, List.map_cons]
    rfl
  have hone' : LinearChecksum.run polymod (hrpChk s) (v :: (l ++ check)) = 1 := by
    rw [← hs, hrpChk_map_tolower]
    exact hone
  obtain ⟨hop, hver⟩ := versionOp_spec v (by omega)
  have hplen := length_programOf l
  have hencode : BRBech32Encode s (versionOp v :: UInt8.ofNat (programOf l).length ::
      programOf l) = _ :=
    BRBech32Encode_eq hschars hop (by omega) (by omega) (by omega)
  rw [if_pos (by omega), hver, hplen] at hencode
  rw [hdata, hs, hencode, haddr, Except.ok.injEq, List.append_cancel_right_eq, address, address,
    List.append_cancel_left_eq, List.cons.injEq, and_iff_right rfl,
    ← programDigits_programOf_iff hlt', ← payload_eq_iff hcheck' hcheck hone']
  exact ⟨text_inj (payload_lt _ _ (by omega)) hlt, fun h => by rw [h]⟩

/-- Both directions, exactly. -/
theorem bech32_spec
    (hrp program : List UInt8) (op : UInt8) (addr hrp' data : List UInt8) :
    (1 ≤ hrp.length → hrp.length ≤ 83 →
      (∀ c ∈ hrp, 32 ≤ c ∧ c ≤ 126 ∧ isupper c = false) → IsVersionOp op →
      2 ≤ program.length → program.length ≤ 40 →
        (RoundTrips hrp (op :: UInt8.ofNat program.length :: program) ↔
          0x20 ∈ hrp ∨ 82 < hrp.length + program.length ∨
            hrp.length + (8 * program.length + 4) / 5 ≤ 82)) ∧
      (BRBech32Decode addr = some (hrp', data) →
        (BRBech32Encode hrp' data = .ok (addr.map tolower ++ [0]) ↔ Padded (dataDigits addr))) :=
  ⟨fun hpos hmax hhrp hop hlen hlen' => codec_roundTrips_iff hpos hmax hhrp hop hlen hlen',
    encode_eq_iff⟩

theorem bech32_spec_short : RoundTrips [0x62, 0x63] [0, 2, 0xab, 0xcd] :=
  ((bech32_spec [0x62, 0x63] [0xab, 0xcd] 0 [] [] []).1 (by decide) (by decide)
    (by decide +kernel) (by decide) (by decide) (by decide)).mpr (by decide +kernel)

/-- A program of 40 bytes and a prefix of 40 characters go past the end of
`addr[91]`, and a string with a set bit of padding is accepted. -/
theorem not_bech32_codec :
    ¬RoundTrips (List.replicate 40 0x61) (0 :: 40 :: List.replicate 40 0) ∧
      BRBech32Decode [0x62, 0x63, 0x31, 0x71, 0x71, 0x71, 0x71, 0x70, 0x76, 0x6e, 0x33, 0x64, 0x61,
        0x70] = some ([0x62, 0x63], [0, 2, 0, 0]) ∧
      BRBech32Encode [0x62, 0x63] [0, 2, 0, 0] ≠
        .ok ([0x62, 0x63, 0x31, 0x71, 0x71, 0x71, 0x71, 0x70, 0x76, 0x6e, 0x33, 0x64, 0x61,
          0x70].map tolower ++ [0]) := by
  have hoverrun : BRBech32Encode (List.replicate 40 0x61) (0 :: 40 :: List.replicate 40 0) =
      .error .overrun := by
    decide +kernel
  refine ⟨?_, by decide +kernel, by decide +kernel⟩
  rintro (h | ⟨addr, h, -⟩)
  · rw [hoverrun] at h
    exact absurd h (by decide)
  · rw [hoverrun] at h
    exact absurd h (by simp)

end Bech32

end BreadwalletCore
