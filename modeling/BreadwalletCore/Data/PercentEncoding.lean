import Mathlib.Data.List.Forall2
import Mathlib.Tactic

/-!
# Percent-encoding

Strings as lists of their scalars, their bytes in UTF-8, and the escapes of bytes as
`%` and two hexadecimal digits.

* `escape` leaves the characters of a set and escapes the bytes of all others.
* `unescape` is its inverse, undefined where an escape is not complete or the bytes are
  not UTF-8.
-/

namespace PercentEncoding

/-! ## UTF-8 -/

def utf8 (s : List Char) : List UInt8 :=
  s.flatMap String.utf8EncodeChar

/-- The string of bytes in UTF-8. -/
def decode (bytes : List UInt8) : Option (List Char) :=
  bytes.toByteArray.utf8Decode?.map Array.toList

theorem utf8_append
    (s t : List Char) :
    utf8 (s ++ t) = utf8 s ++ utf8 t :=
  List.flatMap_append

theorem utf8_cons
    (c : Char) (s : List Char) :
    utf8 (c :: s) = String.utf8EncodeChar c ++ utf8 s :=
  rfl

theorem decode_utf8
    (s : List Char) :
    decode (utf8 s) = some s := by
  have h : s.utf8Encode.utf8Decode? = some s.toArray := List.utf8Decode?_utf8Encode
  rw [decode, utf8]
  exact (congrArg (Option.map Array.toList) h).trans rfl

theorem decode_eq_some
    {bytes : List UInt8} {s : List Char}
    (h : decode bytes = some s) :
    bytes = utf8 s := by
  rw [decode, Option.map_eq_some_iff] at h
  obtain ⟨a, ha, rfl⟩ := h
  have hsome : bytes.toByteArray.utf8Decode?.isSome := by rw [ha]; rfl
  obtain ⟨m, hm⟩ := ByteArray.isSome_utf8Decode?_iff.mp hsome
  have hm' : bytes.toByteArray.utf8Decode? = some m.toArray := by
    rw [hm]
    exact List.utf8Decode?_utf8Encode
  rw [hm', Option.some.injEq] at ha
  rw [← ha, List.toList_toArray]
  have hbytes := congrArg (fun b => b.data.toList) hm
  simpa [List.utf8Encode, utf8] using hbytes

/-! ## Escapes -/

/-- A hexadecimal digit. -/
def hexDigit (n : ℕ) : Char :=
  Char.ofNat (if n < 10 then 48 + n else 55 + n)

def hexValue (c : Char) : Option ℕ :=
  if '0' ≤ c ∧ c ≤ '9' then some (c.toNat - 48)
  else if 'A' ≤ c ∧ c ≤ 'F' then some (c.toNat - 55)
  else if 'a' ≤ c ∧ c ≤ 'f' then some (c.toNat - 87)
  else none

def escapeByte (b : UInt8) : List Char :=
  ['%', hexDigit (b.toNat / 16), hexDigit (b.toNat % 16)]

def escapeChar (allowed : Char → Bool) (c : Char) : List Char :=
  if allowed c then [c] else (String.utf8EncodeChar c).flatMap escapeByte

def escape (allowed : Char → Bool) (s : List Char) : List Char :=
  s.flatMap (escapeChar allowed)

/-- The bytes of a string, with those that are escaped. -/
def bytes : List Char → Option (List UInt8)
  | [] => some []
  | c :: s =>
      if c = '%' then
        match s with
        | a :: b :: s => do
            let x ← hexValue a
            let y ← hexValue b
            let l ← bytes s
            some (UInt8.ofNat (16 * x + y) :: l)
        | _ => none
      else (bytes s).map (fun l => String.utf8EncodeChar c ++ l)

def unescape (s : List Char) : Option (List Char) :=
  (bytes s).bind decode

theorem hexValue_hexDigit
    {n : ℕ}
    (hn : n < 16) :
    hexValue (hexDigit n) = some n := by
  revert n
  decide

theorem bytes_cons
    {c : Char}
    (hc : c ≠ '%')
    (s : List Char) :
    bytes (c :: s) = (bytes s).map (fun l => String.utf8EncodeChar c ++ l) := by
  rw [bytes.eq_def]
  exact if_neg hc

theorem bytes_escapeByte
    (b : UInt8) (s : List Char) :
    bytes (escapeByte b ++ s) = (bytes s).map (fun l => b :: l) := by
  have hlt := b.toNat_lt
  have hb : UInt8.ofNat (16 * (b.toNat / 16) + b.toNat % 16) = b := by
    rw [Nat.div_add_mod, UInt8.ofNat_toNat]
  rw [escapeByte, List.cons_append, List.cons_append, List.cons_append, List.nil_append, bytes,
    if_pos rfl, hexValue_hexDigit (by omega), hexValue_hexDigit (by omega)]
  cases bytes s with
  | none =>
      rfl
  | some l =>
      exact congrArg (fun b => some (b :: l)) hb

/-- A string in front of any other stands for the bytes of `t`. -/
def Encodes (s t : List Char) : Prop :=
  ∀ rest, bytes (s ++ rest) = (bytes rest).map (fun l => utf8 t ++ l)

theorem encodes_nil : Encodes [] [] := by
  intro rest
  rw [List.nil_append]
  cases bytes rest <;> rfl

theorem Encodes.append
    {s₁ s₂ t₁ t₂ : List Char}
    (h₁ : Encodes s₁ t₁)
    (h₂ : Encodes s₂ t₂) :
    Encodes (s₁ ++ s₂) (t₁ ++ t₂) := by
  intro rest
  rw [List.append_assoc, h₁, h₂, Option.map_map, utf8_append]
  exact congrArg (fun f => Option.map f _) (funext fun l => (List.append_assoc _ _ l).symm)

theorem encodes_char
    {c : Char}
    (hc : c ≠ '%') :
    Encodes [c] [c] := by
  intro rest
  rw [List.singleton_append, bytes_cons hc, utf8_cons]
  exact congrArg (fun f => Option.map f _) (funext fun l => by rw [utf8, List.flatMap_nil,
    List.append_nil])

theorem bytes_escapeBytes
    (l : List UInt8) (s : List Char) :
    bytes (l.flatMap escapeByte ++ s) = (bytes s).map (fun l' => l ++ l') := by
  induction l with
  | nil =>
      rw [List.flatMap_nil, List.nil_append]
      cases bytes s <;> rfl
  | cons b l ih =>
      rw [List.flatMap_cons, List.append_assoc, bytes_escapeByte, ih, Option.map_map]
      rfl

theorem Encodes.unescape
    {s t : List Char}
    (h : Encodes s t) :
    unescape s = some t := by
  have hbytes := h []
  rw [List.append_nil, bytes, Option.map_some, List.append_nil] at hbytes
  rw [PercentEncoding.unescape, hbytes, Option.bind_some, decode_utf8]

/-- A string that is escaped, with characters replaced that stand for themselves. -/
theorem encodes_map_escape
    {allowed : Char → Bool} {f : Char → Char}
    (hescape : ∀ b, (escapeByte b).map f = escapeByte b)
    (hfix : ∀ c, allowed c = false → f c = c)
    (hallowed : ∀ c, allowed c = true → f c ≠ '%')
    (s : List Char) :
    Encodes ((escape allowed s).map f) (s.map f) := by
  induction s with
  | nil =>
      exact encodes_nil
  | cons c s ih =>
      have hc : Encodes ((escapeChar allowed c).map f) [f c] := by
        rw [escapeChar]
        cases h : allowed c with
        | true =>
            exact encodes_char (hallowed c h)
        | false =>
            have hbytes : ((String.utf8EncodeChar c).flatMap escapeByte).map f =
                (String.utf8EncodeChar c).flatMap escapeByte := by
              rw [List.map_flatMap]
              exact List.flatMap_congr (fun b _ => hescape b)
            intro rest
            rw [if_neg (by decide), hbytes, bytes_escapeBytes, hfix c h, utf8_cons, utf8,
              List.flatMap_nil, List.append_nil]
      rw [escape, List.flatMap_cons, List.map_append, List.map_cons, ← List.singleton_append]
      exact hc.append ih

/-! ## Strings that can be unescaped -/

/-- Every `%` begins an escape, and the bytes are those of a string. -/
def WellEscaped (s : List Char) : Prop :=
  ∃ t, bytes s = some (utf8 t)

theorem isSome_unescape_iff
    {s : List Char} :
    (unescape s).isSome ↔ WellEscaped s := by
  rw [unescape, WellEscaped]
  constructor
  · intro h
    obtain ⟨t, ht⟩ := Option.isSome_iff_exists.mp h
    obtain ⟨l, hl, hdecode⟩ := Option.bind_eq_some_iff.mp ht
    exact ⟨t, hl.trans (congrArg some (decode_eq_some hdecode))⟩
  · rintro ⟨t, ht⟩
    rw [ht, Option.bind_some, decode_utf8]
    rfl

theorem decode_cons
    (c : Char) (l : List UInt8) :
    decode (String.utf8EncodeChar c ++ l) = (decode l).map (fun t => c :: t) := by
  have h := @ByteArray.utf8Decode?_utf8Encode_singleton_append l.toByteArray c
  rw [List.utf8Encode_singleton, ← List.toByteArray_append] at h
  rw [decode, h, Option.map_map, decode, Option.map_map]
  exact congrArg (fun f => Option.map f _) (funext fun a => by
    rw [Function.comp_apply, Array.toList_append]
    rfl)

/-- A character that stands for itself does not matter. -/
theorem wellEscaped_cons
    {c : Char} {s : List Char}
    (hc : c ≠ '%') :
    WellEscaped (c :: s) ↔ WellEscaped s := by
  rw [← isSome_unescape_iff, ← isSome_unescape_iff, unescape, unescape, bytes_cons hc]
  cases bytes s with
  | none =>
      rfl
  | some l =>
      rw [Option.map_some, Option.bind_some, Option.bind_some, decode_cons, Option.isSome_map]

/-- Bytes that are the same or stand for themselves. -/
def SameClass (b b' : UInt8) : Prop :=
  b = b' ∨ b < 128 ∧ b' < 128

theorem SameClass.symm
    {b b' : UInt8}
    (h : SameClass b b') :
    SameClass b' b :=
  h.elim (fun h => Or.inl h.symm) (fun h => Or.inr ⟨h.2, h.1⟩)

theorem not_lt_ofNat
    {n : ℕ}
    (hlo : 128 ≤ n)
    (hhi : n < 256) :
    ¬ UInt8.ofNat n < 128 := by
  rw [UInt8.lt_iff_toNat_lt, UInt8.toNat_ofNat', Nat.mod_eq_of_lt hhi]
  exact Nat.not_lt.mpr hlo

/-- The bytes of a character are one, or all at least 128. -/
theorem utf8EncodeChar_cases
    (c : Char) :
    (∃ b, String.utf8EncodeChar c = [b]) ∨ ∀ b ∈ String.utf8EncodeChar c, ¬ b < 128 := by
  rw [String.utf8EncodeChar]
  split_ifs with h₁ h₂ h₃
  · exact Or.inl ⟨_, rfl⟩
  all_goals
    refine Or.inr ?_
    simp only [List.mem_cons, List.not_mem_nil, or_false, forall_eq_or_imp, forall_eq]
  · exact ⟨not_lt_ofNat (by omega) (by omega), not_lt_ofNat (by omega) (by omega)⟩
  · exact ⟨not_lt_ofNat (by omega) (by omega), not_lt_ofNat (by omega) (by omega),
      not_lt_ofNat (by omega) (by omega)⟩
  · exact ⟨not_lt_ofNat (by omega) (by omega), not_lt_ofNat (by omega) (by omega),
      not_lt_ofNat (by omega) (by omega), not_lt_ofNat (by omega) (by omega)⟩

theorem utf8EncodeChar_ofNat
    {b : UInt8}
    (hb : b < 128) :
    String.utf8EncodeChar (Char.ofNat b.toNat) = [b] := by
  have hlt : b.toNat < 128 := UInt8.lt_iff_toNat_lt.mp hb
  have hvalid : b.toNat.isValidChar := Or.inl (by omega)
  have hval : (Char.ofNat b.toNat).val.toNat = b.toNat := by
    rw [Char.ofNat, dif_pos hvalid]
    rfl
  rw [String.utf8EncodeChar]
  rw [hval, if_pos (by omega), UInt8.ofNat_toNat]

/-- Bytes of the same classes as those of a string are a string's. -/
theorem exists_utf8_of_sameClass
    {t : List Char} {l : List UInt8}
    (h : List.Forall₂ SameClass (utf8 t) l) :
    ∃ t', l = utf8 t' := by
  induction t generalizing l with
  | nil =>
      exact ⟨[], List.forall₂_nil_left_iff.mp h⟩
  | cons c t ih =>
      rw [utf8_cons] at h
      have hsplit := List.take_append_drop (String.utf8EncodeChar c).length l
      have hfront := List.forall₂_take (String.utf8EncodeChar c).length h
      have hback := List.forall₂_drop (String.utf8EncodeChar c).length h
      rw [List.take_left] at hfront
      rw [List.drop_left] at hback
      obtain ⟨t', ht'⟩ := ih hback
      rw [← hsplit, ht']
      rcases utf8EncodeChar_cases c with ⟨b, hb⟩ | hhigh
      · rw [hb] at hfront ⊢
        obtain ⟨b', u, hbb', hnil, hl⟩ := List.forall₂_cons_left_iff.mp hfront
        rw [hl, List.forall₂_nil_left_iff.mp hnil]
        rcases hbb' with rfl | ⟨-, hlow⟩
        · exact ⟨c :: t', by rw [utf8_cons, hb]⟩
        · exact ⟨Char.ofNat b'.toNat :: t', by rw [utf8_cons, utf8EncodeChar_ofNat hlow]⟩
      · -- no byte can differ
        have hsame := (List.forall₂_and_left _ _).mpr ⟨hhigh, hfront⟩
        have heq := hsame.imp (fun b b' h => h.2.resolve_right (fun hlow => h.1 hlow.1))
        rw [List.forall₂_eq_eq_eq] at heq
        exact ⟨c :: t', by rw [utf8_cons, ← heq]⟩

/-- Characters replaced by others of the same class: neither `%` nor a digit is. -/
theorem bytes_map
    {f : Char → Char}
    (hpercent : ∀ c, f c = '%' ↔ c = '%')
    (hdigit : ∀ c, hexValue (f c) = hexValue c)
    (hclass : ∀ c, List.Forall₂ SameClass (String.utf8EncodeChar c) (String.utf8EncodeChar (f c)))
    (s : List Char) :
    Option.Rel (List.Forall₂ SameClass) (bytes s) (bytes (s.map f)) := by
  have hpct : f '%' = '%' := (hpercent '%').mpr rfl
  induction s using bytes.induct with
  | case1 =>
      exact .some .nil
  | case2 a b s ih =>
      rw [List.map_cons, List.map_cons, List.map_cons, hpct, bytes, bytes, if_pos rfl, if_pos rfl,
        hdigit, hdigit]
      generalize bytes s = l at ih ⊢
      generalize bytes (s.map f) = l' at ih ⊢
      cases hexValue a with
      | none =>
          exact .none
      | some x =>
          cases hexValue b with
          | none =>
              exact .none
          | some y =>
              cases ih with
              | none =>
                  exact .none
              | some hrel =>
                  exact .some (.cons (.inl rfl) hrel)
  | case3 s hshort =>
      match s with
      | [] =>
          rw [List.map_cons, hpct]
          exact .none
      | [a] =>
          rw [List.map_cons, hpct]
          exact .none
      | a :: b :: s =>
          exact absurd rfl (hshort a b s)
  | case4 c s hc ih =>
      rw [List.map_cons, bytes_cons hc, bytes_cons (fun h => hc ((hpercent c).mp h))]
      generalize bytes s = l at ih ⊢
      generalize bytes (s.map f) = l' at ih ⊢
      cases ih with
      | none =>
          exact .none
      | some hrel =>
          exact .some (List.rel_append (hclass c) hrel)

/-- Such replacements do not matter either. -/
theorem wellEscaped_map
    {f : Char → Char}
    (hpercent : ∀ c, f c = '%' ↔ c = '%')
    (hdigit : ∀ c, hexValue (f c) = hexValue c)
    (hclass : ∀ c, List.Forall₂ SameClass (String.utf8EncodeChar c) (String.utf8EncodeChar (f c)))
    (s : List Char) :
    WellEscaped (s.map f) ↔ WellEscaped s := by
  have hrel := bytes_map hpercent hdigit hclass s
  rw [WellEscaped, WellEscaped]
  generalize bytes s = l at hrel ⊢
  generalize bytes (s.map f) = l' at hrel ⊢
  cases hrel with
  | none =>
      rfl
  | @some l l' hrel =>
      constructor
      · rintro ⟨t, ht⟩
        have hflip : List.Forall₂ (flip SameClass) l' l := hrel.flip
        rw [Option.some.inj ht] at hflip
        obtain ⟨t', ht'⟩ := exists_utf8_of_sameClass (hflip.imp (fun _ _ h => SameClass.symm h))
        exact ⟨t', congrArg some ht'⟩
      · rintro ⟨t, ht⟩
        rw [Option.some.inj ht] at hrel
        obtain ⟨t', ht'⟩ := exists_utf8_of_sameClass hrel
        exact ⟨t', congrArg some ht'⟩

end PercentEncoding
