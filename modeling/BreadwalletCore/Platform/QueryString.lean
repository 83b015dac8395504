import BreadwalletCore.Data.KeyedList
import BreadwalletCore.Data.PercentEncoding

/-!
# Query strings

`buildQueryString` and `parseQueryString` of `Extensions.swift`.

* A string is the list of its scalars; a dictionary is the list of its entries, in the
  order of an enumeration.
* Percent-encoding is that of the standard; `none` is a trap.
-/

namespace BreadwalletCore

open PercentEncoding

/-- A dictionary from strings to lists of strings. -/
abbrev QueryOptions := List (List Char × List (List Char))

/-! ## The code -/

/-- The characters of a query that need no escape. -/
def urlQueryAllowed (c : Char) : Bool :=
  c.isAlphanum || "-._~!$&\x27()*+,;=:@/?".toList.contains c

/-- `urlQuoteCharacterSet` -/
def urlQuoteCharacterSet (c : Char) : Bool :=
  urlQueryAllowed c && !"?=&".toList.contains c

def urlEscapedString (s : List Char) : List Char :=
  escape urlQuoteCharacterSet s

/-- A turn of the inner loop of `buildQueryString`: `s` and `i`. -/
def appendPair (k : List Char) (st : List Char × ℕ) (v : List Char) : List Char × ℕ :=
  let s := if st.2 ≠ 0 then st.1 ++ ['&'] else st.1
  (s ++ (urlEscapedString k ++ '=' :: urlEscapedString v), st.2 + 1)

/-- `String.buildQueryString` -/
def buildQueryString (options : Option QueryOptions) (includeQ : Bool) : List Char :=
  match options with
  | some options =>
      if options.length > 0 then
        (options.foldl (fun st p => p.2.foldl (appendPair p.1) st)
          (if includeQ then ['?'] else [], 0)).1
      else []
  | none => []

/-- `replacingOccurrences(of: "+", with: " ")`, for a character. -/
def plusToSpace (c : Char) : Char :=
  if c = '+' then ' ' else c

/-- A turn of the loop of `parseQueryString`.  With a key that is there the value goes to
a copy of its list. -/
def parseComponent (ret : QueryOptions) (s : List Char) : QueryOptions :=
  match s.splitOn '=' with
  | [k, v] =>
      match KeyedList.get Prod.fst ret k with
      | some _ => ret
      | none => ret ++ [(k, [v])]
  | _ => ret

/-- `parseQueryString`, which takes the first character of the string. -/
def parseQueryString (s : List Char) : Option QueryOptions :=
  match s with
  | [] => none
  | c :: rest => do
      let stripped := if c = '?' then rest else c :: rest
      let decoded ← unescape (stripped.map plusToSpace)
      some ((decoded.splitOn '&').foldl parseComponent [])

/-! ## What is built -/

/-- Keys with their values, in the order of the loops. -/
def queryPairs (o : QueryOptions) : List (List Char × List Char) :=
  o.flatMap (fun p => p.2.map (fun v => (p.1, v)))

/-- A pair as it is written. -/
def escapedPair (p : List Char × List Char) : List Char :=
  urlEscapedString p.1 ++ '=' :: urlEscapedString p.2

/-- A pair as it is meant. -/
def plainPair (p : List Char × List Char) : List Char :=
  p.1 ++ '=' :: p.2

theorem foldl_appendPair
    (ps : List (List Char × List Char)) (s : List Char) (n : ℕ) :
    (ps.foldl (fun st p => appendPair p.1 st p.2) (s, n + 1)).1 =
      s ++ ps.flatMap (fun p => '&' :: escapedPair p) := by
  induction ps generalizing s n with
  | nil =>
      exact (List.append_nil s).symm
  | cons p ps ih =>
      have hturn : appendPair p.1 (s, n + 1) p.2 = (s ++ '&' :: escapedPair p, n + 1 + 1) := by
        rw [appendPair, if_pos (Nat.succ_ne_zero n), List.append_assoc]
        rfl
      rw [List.foldl_cons, hturn, ih, List.flatMap_cons, List.append_assoc]

theorem intercalate_cons
    (x : List Char) (l : List (List Char × List Char)) (f : List Char × List Char → List Char) :
    ['&'].intercalate (x :: l.map f) = x ++ l.flatMap (fun p => '&' :: f p) := by
  induction l generalizing x with
  | nil =>
      simp
  | cons p l ih =>
      rw [List.map_cons, List.intercalate_cons_cons, ih, List.flatMap_cons]
      simp

/-- The pairs, with `&` between them. -/
theorem buildQueryString_eq
    {o : QueryOptions} (includeQ : Bool)
    (hne : o ≠ [])
    (hpairs : queryPairs o ≠ []) :
    buildQueryString (some o) includeQ =
      (if includeQ then ['?'] else []) ++ ['&'].intercalate ((queryPairs o).map escapedPair) := by
  have hloops : ∀ st : List Char × ℕ, o.foldl (fun st p => p.2.foldl (appendPair p.1) st) st =
      (queryPairs o).foldl (fun st p => appendPair p.1 st p.2) st := by
    intro st
    rw [queryPairs, List.foldl_flatMap]
    refine congrArg (fun f => List.foldl f st o) (funext fun st => funext fun p => ?_)
    rw [List.foldl_map]
  rw [buildQueryString, if_pos (List.length_pos_iff.mpr hne), hloops]
  obtain ⟨p, ps, hps⟩ := List.exists_cons_of_ne_nil hpairs
  rw [hps, List.foldl_cons, appendPair, if_neg (fun h => h rfl), foldl_appendPair, List.map_cons,
    intercalate_cons, List.append_assoc]
  rfl

/-! ## What is decoded -/

theorem escapeByte_digits
    (b : UInt8) :
    ∀ c ∈ escapeByte b, c = '%' ∨ ∃ n < 16, c = hexDigit n := by
  have hlt := b.toNat_lt
  intro c hc
  rw [escapeByte, List.mem_cons, List.mem_cons, List.mem_singleton] at hc
  rcases hc with rfl | rfl | rfl
  · exact Or.inl rfl
  · exact Or.inr ⟨_, by omega, rfl⟩
  · exact Or.inr ⟨_, by omega, rfl⟩

/-- No escape has a `?` or a `+`. -/
theorem escapeByte_ne
    (b : UInt8) :
    ∀ c ∈ escapeByte b, c ≠ '?' ∧ c ≠ '+' := by
  intro c hc
  rcases escapeByte_digits b c hc with rfl | ⟨n, hn, rfl⟩
  · decide
  · clear hc
    revert n
    decide

theorem encodes_urlEscapedString
    (s : List Char) :
    Encodes ((urlEscapedString s).map plusToSpace) (s.map plusToSpace) := by
  refine encodes_map_escape (fun b => ?_) (fun c hc => ?_) (fun c hc => ?_) s
  · have hsame : ∀ c ∈ escapeByte b, plusToSpace c = c :=
      fun c hc => if_neg (escapeByte_ne b c hc).2
    rw [List.map_congr_left hsame, List.map_id']
  · rw [plusToSpace, if_neg]
    rintro rfl
    exact absurd hc (by decide)
  · rw [plusToSpace]
    split_ifs with h
    · decide
    · rintro rfl
      exact absurd hc (by decide)

theorem encodes_escapedPair
    (p : List Char × List Char) :
    Encodes ((escapedPair p).map plusToSpace) ((plainPair p).map plusToSpace) := by
  rw [escapedPair, plainPair, List.map_append, List.map_append, List.map_cons, List.map_cons]
  refine (encodes_urlEscapedString p.1).append ?_
  exact (encodes_char (by decide)).append (encodes_urlEscapedString p.2)

/-- Pairs that are escaped one by one are decoded together. -/
theorem encodes_pairs
    (ps : List (List Char × List Char)) :
    Encodes ((['&'].intercalate (ps.map escapedPair)).map plusToSpace)
      ((['&'].intercalate (ps.map plainPair)).map plusToSpace) := by
  cases ps with
  | nil =>
      exact encodes_nil
  | cons p ps =>
      rw [List.map_cons, List.map_cons, intercalate_cons, intercalate_cons, List.map_append,
        List.map_append]
      refine (encodes_escapedPair p).append ?_
      induction ps with
      | nil =>
          exact encodes_nil
      | cons p ps ih =>
          rw [List.flatMap_cons, List.flatMap_cons, List.map_append, List.map_append,
            List.map_cons, List.map_cons]
          exact ((encodes_char (by decide)).append (encodes_escapedPair p)).append ih

theorem not_mem_urlEscapedString
    (s : List Char) :
    '?' ∉ urlEscapedString s := by
  intro h
  obtain ⟨c, -, hc⟩ := List.mem_flatMap.mp h
  rw [escapeChar] at hc
  split_ifs at hc with hallowed
  · rw [← List.mem_singleton.mp hc] at hallowed
    exact absurd hallowed (by decide)
  · obtain ⟨b, -, hb⟩ := List.mem_flatMap.mp hc
    exact (escapeByte_ne b '?' hb).1 rfl

/-- What has been built is split into the pairs as they are meant, but for the `+`. -/
theorem parseQueryString_build
    {o : QueryOptions} (includeQ : Bool)
    (hne : o ≠ [])
    (hpairs : queryPairs o ≠ []) :
    parseQueryString (buildQueryString (some o) includeQ) =
      some ((((['&'].intercalate ((queryPairs o).map plainPair)).map plusToSpace).splitOn
        '&').foldl parseComponent []) := by
  have hdecode := (encodes_pairs (queryPairs o)).unescape
  rw [buildQueryString_eq includeQ hne hpairs]
  cases includeQ with
  | true =>
      rw [if_pos rfl, List.singleton_append, parseQueryString, if_pos rfl, hdecode]
      rfl
  | false =>
      obtain ⟨p, ps, hps⟩ := List.exists_cons_of_ne_nil hpairs
      obtain ⟨c, rest, hcons⟩ : ∃ c rest,
          ['&'].intercalate ((queryPairs o).map escapedPair) = c :: rest := by
        refine List.exists_cons_of_ne_nil ?_
        rw [hps, List.map_cons, intercalate_cons, escapedPair]
        simp
      have hfirst : c ≠ '?' := by
        rintro rfl
        rw [hps, List.map_cons, intercalate_cons, escapedPair] at hcons
        cases hkey : urlEscapedString p.1 with
        | nil =>
            rw [hkey] at hcons
            exact absurd (List.cons.inj hcons).1 (by decide)
        | cons a l =>
            rw [hkey] at hcons
            have hmem := not_mem_urlEscapedString p.1
            rw [hkey, (List.cons.inj hcons).1] at hmem
            exact hmem List.mem_cons_self
      rw [if_neg (by decide), List.nil_append, hcons, parseQueryString, if_neg hfirst, ← hcons,
        hdecode]
      rfl

/-! ## What is split -/

/-- A piece has no separator, and only characters of the whole. -/
theorem mem_splitOn
    {x : Char} {l piece : List Char}
    (h : piece ∈ l.splitOn x) :
    x ∉ piece ∧ ∀ c ∈ piece, c ∈ l := by
  induction l generalizing piece with
  | nil =>
      rw [List.splitOn_nil, List.mem_singleton] at h
      rw [h]
      exact ⟨List.not_mem_nil, fun c hc => hc⟩
  | cons y l ih =>
      rw [List.splitOn_cons_eq_if_modifyHead] at h
      split_ifs at h with hy
      · rcases List.mem_cons.mp h with rfl | h
        · exact ⟨List.not_mem_nil, fun c hc => absurd hc List.not_mem_nil⟩
        · exact ⟨(ih h).1, fun c hc => List.mem_cons_of_mem _ ((ih h).2 c hc)⟩
      · obtain ⟨first, others, hsplit⟩ := List.exists_cons_of_ne_nil (List.splitOn_ne_nil x l)
        rw [hsplit, List.modifyHead_cons] at h
        rcases List.mem_cons.mp h with rfl | h
        · have hfirst := ih (hsplit ▸ List.mem_cons_self)
          refine ⟨fun hx => ?_, fun c hc => ?_⟩
          · rcases List.mem_cons.mp hx with rfl | hx
            · exact hy (BEq.refl _)
            · exact hfirst.1 hx
          · rcases List.mem_cons.mp hc with rfl | hc
            · exact List.mem_cons_self
            · exact List.mem_cons_of_mem _ (hfirst.2 c hc)
        · have hother := ih (hsplit ▸ List.mem_cons_of_mem _ h)
          exact ⟨hother.1, fun c hc => List.mem_cons_of_mem _ (hother.2 c hc)⟩

/-- A string without the characters that separate or stand for a space. -/
def Unreserved (s : List Char) : Prop :=
  '&' ∉ s ∧ '=' ∉ s ∧ '+' ∉ s

/-- An entry that is read back: one value, and nothing reserved. -/
def PlainEntry (p : List Char × List (List Char)) : Prop :=
  Unreserved p.1 ∧ ∃ v, p.2 = [v] ∧ Unreserved v

/-- A component without `&` and `+` adds at most one plain entry. -/
theorem parseComponent_plain
    {ret : QueryOptions} {s : List Char}
    (hret : ∀ p ∈ ret, PlainEntry p)
    (hand : '&' ∉ s)
    (hplus : '+' ∉ s) :
    ∀ p ∈ parseComponent ret s, PlainEntry p := by
  have hpiece : ∀ piece ∈ s.splitOn '=', Unreserved piece := fun piece h =>
    ⟨fun hc => hand ((mem_splitOn h).2 _ hc), (mem_splitOn h).1,
      fun hc => hplus ((mem_splitOn h).2 _ hc)⟩
  rw [parseComponent]
  split
  · next k v hsplit =>
      rw [hsplit] at hpiece
      split
      · exact hret
      · intro p hp
        rcases List.mem_append.mp hp with hp | hp
        · exact hret p hp
        · rw [List.mem_singleton.mp hp]
          exact ⟨hpiece k (by simp), v, rfl, hpiece v (by simp)⟩
  · exact hret

theorem foldl_parseComponent_plain
    {l : List (List Char)} {ret : QueryOptions}
    (hret : ∀ p ∈ ret, PlainEntry p)
    (hand : ∀ s ∈ l, '&' ∉ s)
    (hplus : ∀ s ∈ l, '+' ∉ s) :
    ∀ p ∈ l.foldl parseComponent ret, PlainEntry p := by
  induction l generalizing ret with
  | nil =>
      exact hret
  | cons s l ih =>
      rw [List.foldl_cons]
      exact ih (parseComponent_plain hret (hand s List.mem_cons_self)
        (hplus s List.mem_cons_self)) (fun t ht => hand t (List.mem_cons_of_mem _ ht))
        (fun t ht => hplus t (List.mem_cons_of_mem _ ht))

/-- A plain entry is added under a new key. -/
theorem parseComponent_entry
    {ret : QueryOptions} {k v : List Char}
    (hk : Unreserved k)
    (hv : Unreserved v)
    (hnew : KeyedList.get Prod.fst ret k = none) :
    parseComponent ret (plainPair (k, v)) = ret ++ [(k, [v])] := by
  have hsplit : (plainPair (k, v)).splitOn '=' = [k, v] := by
    rw [plainPair, List.splitOn_append_cons_self_of_not_mem hk.2.1,
      List.splitOn_eq_singleton hv.2.1]
  rw [parseComponent, hsplit]
  dsimp only
  rw [hnew]

/-- Entries with distinct keys are all read back. -/
theorem foldl_parseComponent_entries
    {o ret : QueryOptions}
    (hplain : ∀ p ∈ o, PlainEntry p)
    (hnodup : ((ret ++ o).map Prod.fst).Nodup) :
    ((queryPairs o).map plainPair).foldl parseComponent ret = ret ++ o := by
  induction o generalizing ret with
  | nil =>
      exact (List.append_nil ret).symm
  | cons p o ih =>
      obtain ⟨k, vals⟩ := p
      obtain ⟨hk, v, hvals, hv⟩ := hplain _ List.mem_cons_self
      dsimp only at hk hvals
      have hnew : KeyedList.get Prod.fst ret k = none := by
        rw [List.map_append, List.map_cons] at hnodup
        cases h : KeyedList.get Prod.fst ret k with
        | none =>
            rfl
        | some q =>
            have hmem : q.1 ∈ ret.map Prod.fst := List.mem_map_of_mem (KeyedList.mem_of_get h)
            exact absurd (KeyedList.key_of_get h)
              ((List.nodup_append.mp hnodup).2.2 q.1 hmem k List.mem_cons_self)
      rw [hvals] at hnodup ⊢
      have hnext := @ih (ret ++ [(k, [v])]) (fun q hq => hplain q (List.mem_cons_of_mem _ hq))
        (by rwa [List.append_assoc, List.singleton_append])
      rw [List.append_assoc, List.singleton_append] at hnext
      rw [queryPairs, List.flatMap_cons, List.map_cons, List.map_nil, List.singleton_append,
        List.map_cons, List.foldl_cons, parseComponent_entry hk hv hnew]
      exact hnext

/-! ## The codec -/

/-- The dictionary that has been built is read back. -/
def ReadsBack (o : QueryOptions) (includeQ : Bool) : Prop :=
  ∃ d, parseQueryString (buildQueryString (some o) includeQ) = some d ∧
    ∀ k, KeyedList.get Prod.fst d k = KeyedList.get Prod.fst o k

theorem queryPairs_ne_nil
    {o : QueryOptions}
    (hne : o ≠ [])
    (hvals : ∀ p ∈ o, p.2 ≠ []) :
    queryPairs o ≠ [] := by
  obtain ⟨p, o, rfl⟩ := List.exists_cons_of_ne_nil hne
  obtain ⟨v, vs, hv⟩ := List.exists_cons_of_ne_nil (hvals p List.mem_cons_self)
  rw [queryPairs, List.flatMap_cons, hv]
  exact List.cons_ne_nil _ _

/-- Nothing but plain entries is read from what has been built. -/
theorem plainEntry_of_parse
    {o d : QueryOptions} {includeQ : Bool}
    (hne : o ≠ [])
    (hvals : ∀ p ∈ o, p.2 ≠ [])
    (h : parseQueryString (buildQueryString (some o) includeQ) = some d) :
    ∀ p ∈ d, PlainEntry p := by
  rw [parseQueryString_build includeQ hne (queryPairs_ne_nil hne hvals)] at h
  have hplus : ∀ s : List Char, '+' ∉ s.map plusToSpace := by
    intro s hmem
    obtain ⟨c, -, hc⟩ := List.mem_map.mp hmem
    rw [plusToSpace] at hc
    split_ifs at hc with hcase
    · exact absurd hc (by decide)
    · exact hcase hc
  rw [← Option.some.inj h]
  exact foldl_parseComponent_plain (fun p hp => absurd hp List.not_mem_nil)
    (fun s hs => (mem_splitOn hs).1) (fun s hs hmem => hplus _ ((mem_splitOn hs).2 _ hmem))

theorem readsBack_iff
    {o : QueryOptions} {includeQ : Bool}
    (hne : o ≠ [])
    (hvals : ∀ p ∈ o, p.2 ≠ [])
    (hkeys : (o.map Prod.fst).Nodup) :
    ReadsBack o includeQ ↔ ∀ p ∈ o, PlainEntry p := by
  constructor
  · rintro ⟨d, hparse, hsame⟩ p hp
    have hget := (hsame p.1).trans (KeyedList.get_eq_some_of_mem hkeys hp)
    exact plainEntry_of_parse hne hvals hparse p (KeyedList.mem_of_get hget)
  · intro hplain
    have hpairs := queryPairs_ne_nil hne hvals
    have hreserved : ∀ p ∈ queryPairs o, '&' ∉ plainPair p ∧ '+' ∉ plainPair p := by
      intro p hp
      obtain ⟨q, hq, hpq⟩ := List.mem_flatMap.mp hp
      obtain ⟨v, hv, rfl⟩ := List.mem_map.mp hpq
      obtain ⟨hk, v', hv', hplainv⟩ := hplain q hq
      rw [hv', List.mem_singleton] at hv
      rw [plainPair, hv]
      have hequals : '&' ∉ '=' :: v' ∧ '+' ∉ '=' :: v' :=
        ⟨List.not_mem_cons_of_ne_of_not_mem (by decide) hplainv.1,
          List.not_mem_cons_of_ne_of_not_mem (by decide) hplainv.2.2⟩
      exact ⟨fun h => (List.mem_append.mp h).elim hk.1 hequals.1,
        fun h => (List.mem_append.mp h).elim hk.2.2 hequals.2⟩
    have hspace : (['&'].intercalate ((queryPairs o).map plainPair)).map plusToSpace =
        ['&'].intercalate ((queryPairs o).map plainPair) := by
      obtain ⟨p, ps, hps⟩ := List.exists_cons_of_ne_nil hpairs
      rw [hps] at hreserved ⊢
      rw [List.map_cons, intercalate_cons]
      refine (List.map_congr_left (fun c hc => if_neg ?_)).trans (List.map_id _)
      rintro rfl
      rcases List.mem_append.mp hc with hc | hc
      · exact (hreserved p List.mem_cons_self).2 hc
      · obtain ⟨q, hq, hc⟩ := List.mem_flatMap.mp hc
        exact List.not_mem_cons_of_ne_of_not_mem (by decide)
          (hreserved q (List.mem_cons_of_mem _ hq)).2 hc
    refine ⟨o, ?_, fun k => rfl⟩
    rw [parseQueryString_build includeQ hne hpairs, hspace, List.splitOn_intercalate,
      foldl_parseComponent_entries hplain (by rwa [List.nil_append]), List.nil_append]
    · intro l hl
      obtain ⟨p, hp, rfl⟩ := List.mem_map.mp hl
      exact (hreserved p hp).1
    · exact fun h => hpairs (List.map_eq_nil_iff.mp h)

/-- The spaces for `+` do not matter for what can be unescaped. -/
theorem isSome_unescape_plus
    {s : List Char} :
    (unescape (s.map plusToSpace)).isSome ↔ WellEscaped s := by
  rw [isSome_unescape_iff]
  refine wellEscaped_map (fun c => ?_) (fun c => ?_) (fun c => ?_) s
  · rw [plusToSpace]
    split_ifs with h
    · rw [h]
      decide
    · exact Iff.rfl
  · rw [plusToSpace]
    split_ifs with h
    · rw [h]
      decide
    · rfl
  · rw [plusToSpace]
    split_ifs with h
    · rw [h]
      exact .cons (Or.inr (by decide)) .nil
    · exact List.forall₂_same.mpr (fun b _ => Or.inl rfl)

/-- A string is parsed if and only if it is not empty and can be unescaped. -/
theorem parseQueryString_isSome_iff
    {s : List Char} :
    (∃ d, parseQueryString s = some d) ↔ s ≠ [] ∧ WellEscaped s := by
  cases s with
  | nil =>
      exact ⟨fun ⟨d, hd⟩ => absurd hd.symm (Option.some_ne_none d), fun h => absurd rfl h.1⟩
  | cons c rest =>
      obtain ⟨stripped, hstripped⟩ :
          ∃ stripped, (if c = '?' then rest else c :: rest) = stripped := ⟨_, rfl⟩
      have hstrip : WellEscaped (c :: rest) ↔ WellEscaped stripped := by
        rw [← hstripped]
        split_ifs with hc
        · rw [hc]
          exact wellEscaped_cons (by decide)
        · exact Iff.rfl
      rw [hstrip, ← isSome_unescape_plus, parseQueryString, hstripped]
      cases unescape (stripped.map plusToSpace) with
      | none =>
          exact ⟨fun ⟨d, hd⟩ => absurd hd.symm (Option.some_ne_none d),
            fun h => absurd h.2 Bool.false_ne_true⟩
      | some decoded =>
          exact ⟨fun _ => ⟨List.cons_ne_nil _ _, rfl⟩, fun _ => ⟨_, rfl⟩⟩

/-- What the codec should do: the dictionary is read back, and no string traps. -/
theorem query_codec_iff
    {o : QueryOptions} {includeQ : Bool} {s : List Char}
    (hne : o ≠ [])
    (hvals : ∀ p ∈ o, p.2 ≠ [])
    (hkeys : (o.map Prod.fst).Nodup) :
    (ReadsBack o includeQ ∧ ∃ d, parseQueryString s = some d) ↔
      (∀ p ∈ o, PlainEntry p) ∧ s ≠ [] ∧ WellEscaped s := by
  rw [readsBack_iff hne hvals hkeys, parseQueryString_isSome_iff]

theorem query_codec_single :
    ReadsBack [(['a'], [['b', ' ', '%']]), (['c'], [[]])] true ∧
      ∃ d, parseQueryString ['?', 'a'] = some d := by
  refine (query_codec_iff (by decide) (by decide) (by decide)).mpr
    ⟨?_, by decide, ['?', 'a'], by decide⟩
  rintro p hp
  rcases List.mem_cons.mp hp with rfl | hp
  · exact ⟨⟨by decide, by decide, by decide⟩, _, rfl, by decide, by decide, by decide⟩
  · rw [List.mem_singleton.mp hp]
    exact ⟨⟨by decide, by decide, by decide⟩, _, rfl, by decide, by decide, by decide⟩

/-- The second value of a key is lost, and a `%` alone traps. -/
theorem query_codec_repeated :
    ¬ ReadsBack [(['a'], [['1'], ['2']])] false ∧ ¬ ∃ d, parseQueryString ['%'] = some d := by
  constructor
  · intro h
    have hplain := (readsBack_iff (by decide) (by decide) (by decide)).mp h _ List.mem_cons_self
    obtain ⟨-, v, hv, -⟩ := hplain
    have hlen : (2 : ℕ) = 1 := congrArg List.length hv
    exact absurd hlen (by decide)
  · intro h
    obtain ⟨-, t, ht⟩ := parseQueryString_isSome_iff.mp h
    exact absurd ht.symm (Option.some_ne_none _)

end BreadwalletCore
