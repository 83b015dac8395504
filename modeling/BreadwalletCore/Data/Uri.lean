import Mathlib.Data.List.TakeWhile
import Mathlib.Tactic

/-!
# Parts of a URI

The scheme, the authority with its host, and the query, as the generic syntax splits a
string into them.
-/

namespace Uri

/-- Whether a character ends a scheme. -/
def endsScheme (c : Char) : Bool :=
  c = ':' || c = '/' || c = '?' || c = '#'

/-- Whether a character ends an authority. -/
def endsAuthority (c : Char) : Bool :=
  c = '/' || c = '?' || c = '#'

/-- Whether a character ends a path. -/
def endsPath (c : Char) : Bool :=
  c = '?' || c = '#'

/-- The scheme, and what is behind its colon. -/
def splitScheme (s : List Char) : Option (List Char × List Char) :=
  match s.dropWhile (fun c => !endsScheme c) with
  | [] => none
  | c :: rest =>
      let scheme := s.takeWhile (fun c => !endsScheme c)
      if c = ':' ∧ scheme ≠ [] then some (scheme, rest) else none

def scheme (s : List Char) : Option (List Char) :=
  (splitScheme s).map Prod.fst

/-- What is behind the scheme, or the whole string. -/
def hierPart (s : List Char) : List Char :=
  ((splitScheme s).map Prod.snd).getD s

def withoutUserinfo (authority : List Char) : List Char :=
  match authority.dropWhile (· ≠ '@') with
  | [] => authority
  | _ :: host => host

def withoutPort (host : List Char) : List Char :=
  match host with
  | [] => []
  | c :: rest =>
      if c = '[' ∧ ']' ∈ rest then '[' :: rest.takeWhile (· ≠ ']') ++ [']']
      else host.takeWhile (· ≠ ':')

/-- The host of an authority. -/
def hostOf (authority : List Char) : List Char :=
  withoutPort (withoutUserinfo authority)

/-- The host, which is there if there is an authority. -/
def host (s : List Char) : Option (List Char) :=
  match hierPart s with
  | '/' :: '/' :: rest => some (hostOf (rest.takeWhile (fun c => !endsAuthority c)))
  | _ => none

def query (s : List Char) : Option (List Char) :=
  match s.dropWhile (fun c => !endsPath c) with
  | [] => none
  | c :: rest => if c = '?' then some (rest.takeWhile (· ≠ '#')) else none

/-! ## Schemes -/

/-- A scheme: neither empty, nor with a character that ends one. -/
def IsScheme (s : List Char) : Prop :=
  s ≠ [] ∧ ∀ c ∈ s, endsScheme c = false

theorem splitScheme_append
    {sch : List Char} (rest : List Char)
    (hsch : IsScheme sch) :
    splitScheme (sch ++ ':' :: rest) = some (sch, rest) := by
  have hdrop : (sch ++ ':' :: rest).dropWhile (fun c => !endsScheme c) = ':' :: rest := by
    rw [List.dropWhile_append_of_pos (fun c hc => by rw [hsch.2 c hc]; rfl)]
    rfl
  have htake : (sch ++ ':' :: rest).takeWhile (fun c => !endsScheme c) = sch := by
    rw [List.takeWhile_append_of_pos (fun c hc => by rw [hsch.2 c hc]; rfl)]
    exact List.append_nil sch
  rw [splitScheme, hdrop]
  dsimp only
  rw [htake, if_pos ⟨rfl, hsch.1⟩]

theorem eq_of_splitScheme
    {s sch rest : List Char}
    (h : splitScheme s = some (sch, rest)) :
    s = sch ++ ':' :: rest ∧ IsScheme sch := by
  rw [splitScheme] at h
  cases hdrop : s.dropWhile (fun c => !endsScheme c) with
  | nil =>
      rw [hdrop] at h
      cases h
  | cons c t =>
      rw [hdrop] at h
      dsimp only at h
      split_ifs at h with hcase
      have hsplit := @List.takeWhile_append_dropWhile _ (fun c => !endsScheme c) s
      rw [hdrop, hcase.1] at hsplit
      obtain ⟨h₁, h₂⟩ := Prod.mk.inj (Option.some.inj h)
      rw [← h₁, ← h₂]
      refine ⟨hsplit.symm, hcase.2, fun c hc => ?_⟩
      have hmem := List.mem_takeWhile_imp hc
      rwa [Bool.not_eq_true'] at hmem

/-- There is one way to split a string. -/
theorem eq_of_append
    {s sch rest sch' rest' : List Char}
    (h : splitScheme s = some (sch, rest))
    (heq : s = sch' ++ ':' :: rest')
    (hsch : IsScheme sch') :
    sch' = sch ∧ rest' = rest := by
  rw [heq, splitScheme_append rest' hsch] at h
  exact Prod.mk.inj (Option.some.inj h)

theorem scheme_append
    {sch : List Char} (rest : List Char)
    (hsch : IsScheme sch) :
    scheme (sch ++ ':' :: rest) = some sch := by
  rw [scheme, splitScheme_append rest hsch, Option.map_some]

/-- The same scheme, with an authority. -/
theorem host_append
    {sch : List Char} (rest : List Char)
    (hsch : IsScheme sch) :
    host (sch ++ ':' :: '/' :: '/' :: rest) =
      some (hostOf (rest.takeWhile (fun c => !endsAuthority c))) := by
  rw [host, hierPart, splitScheme_append _ hsch]
  rfl

theorem host_eq_none_iff
    {s sch rest : List Char}
    (h : splitScheme s = some (sch, rest)) :
    host s = none ↔ ¬ ['/', '/'] <+: rest := by
  rw [host, hierPart, h, Option.map_some, Option.getD_some]
  split
  · next t heq =>
      exact ⟨fun h => absurd h (Option.some_ne_none _), fun h => absurd ⟨t, heq.symm⟩ h⟩
  · next hno =>
      refine ⟨fun _ hprefix => ?_, fun _ => rfl⟩
      obtain ⟨t, ht⟩ := hprefix
      exact hno t ht.symm

theorem endsPath_of_endsScheme
    {c : Char}
    (h : endsScheme c = false) :
    endsPath c = false := by
  rw [endsScheme, Bool.or_eq_false_iff, Bool.or_eq_false_iff, Bool.or_eq_false_iff] at h
  rw [endsPath, h.1.2, h.2]
  rfl

theorem endsPath_of_endsAuthority
    {c : Char}
    (h : endsAuthority c = false) :
    endsPath c = false := by
  rw [endsAuthority, Bool.or_eq_false_iff, Bool.or_eq_false_iff] at h
  rw [endsPath, h.1.2, h.2]
  rfl

/-- A query is behind the scheme. -/
theorem query_append
    {front : List Char} (rest : List Char)
    (hfront : ∀ c ∈ front, endsPath c = false) :
    query (front ++ rest) = query rest := by
  rw [query, List.dropWhile_append_of_pos (fun c hc => by rw [hfront c hc]; rfl), query]

theorem query_cons
    {q : List Char}
    (hq : '#' ∉ q) :
    query ('?' :: q) = some q := by
  have htake : q.takeWhile (· ≠ '#') = q :=
    List.takeWhile_eq_self_iff.mpr (fun c hc => by
      rw [decide_eq_true_eq]
      rintro rfl
      exact hq hc)
  rw [query, List.dropWhile_cons_of_neg (by decide)]
  dsimp only
  rw [if_pos rfl, htake]

/-! ## Hosts -/

theorem withoutUserinfo_sublist
    (s : List Char) :
    (withoutUserinfo s).Sublist s := by
  rw [withoutUserinfo]
  cases h : s.dropWhile (· ≠ '@') with
  | nil =>
      exact List.Sublist.refl s
  | cons c rest =>
      have hdrop := List.dropWhile_sublist (l := s) (· ≠ '@')
      rw [h] at hdrop
      exact (List.sublist_cons_self c rest).trans hdrop

theorem mem_of_mem_hostOf
    {s : List Char} {c : Char}
    (hc : c ∈ hostOf s) :
    c ∈ s := by
  refine (withoutUserinfo_sublist s).subset ?_
  rw [hostOf] at hc
  cases h : withoutUserinfo s with
  | nil =>
      rw [h] at hc
      exact hc
  | cons d rest =>
      rw [h, withoutPort] at hc
      split_ifs at hc with hliteral
      · rcases List.mem_append.mp hc with hc | hc
        · rcases List.mem_cons.mp hc with hc | hc
          · rw [hc, ← hliteral.1]
            exact List.mem_cons_self
          · exact List.mem_cons_of_mem _ ((List.takeWhile_sublist _).subset hc)
        · rw [List.mem_singleton.mp hc]
          exact List.mem_cons_of_mem _ hliteral.2
      · exact (List.takeWhile_sublist _).subset hc

/-- A string that is a host by itself. -/
structure IsHost (s : List Char) : Prop where
  plain : ∀ c ∈ s, endsAuthority c = false
  host : hostOf s = s

/-- The host of an authority that ends with a string is that string. -/
theorem isHost_iff
    {s : List Char} (rest : List Char)
    (hrest : rest.takeWhile (fun c => !endsAuthority c) = []) :
    hostOf ((s ++ rest).takeWhile (fun c => !endsAuthority c)) = s ↔ IsHost s := by
  constructor
  · intro h
    have hplain : ∀ c ∈ s, endsAuthority c = false := by
      intro c hc
      rw [← h] at hc
      have hmem := List.mem_takeWhile_imp (mem_of_mem_hostOf hc)
      rwa [Bool.not_eq_true'] at hmem
    have hall : (s ++ rest).takeWhile (fun c => !endsAuthority c) = s := by
      rw [List.takeWhile_append_of_pos (fun c hc => by rw [hplain c hc]; rfl), hrest,
        List.append_nil]
    rw [hall] at h
    exact ⟨hplain, h⟩
  · intro h
    rw [List.takeWhile_append_of_pos (fun c hc => by rw [h.plain c hc]; rfl), hrest,
      List.append_nil]
    exact h.host

/-- Letters and digits are a host. -/
theorem isHost_of_forall
    {s : List Char}
    (hs : ∀ c ∈ s, c ≠ '[' ∧ c ≠ ':' ∧ c ≠ '@' ∧ endsAuthority c = false) :
    IsHost s := by
  refine ⟨fun c hc => (hs c hc).2.2.2, ?_⟩
  have huser : withoutUserinfo s = s := by
    have hdrop : s.dropWhile (· ≠ '@') = [] := by
      refine List.dropWhile_eq_nil_iff.mpr (fun c hc => ?_)
      rw [decide_eq_true_eq]
      exact (hs c hc).2.2.1
    rw [withoutUserinfo, hdrop]
  rw [hostOf, huser]
  cases s with
  | nil =>
      rfl
  | cons c rest =>
      rw [withoutPort, if_neg (fun h => (hs c List.mem_cons_self).1 h.1)]
      refine List.takeWhile_eq_self_iff.mpr (fun d hd => ?_)
      rw [decide_eq_true_eq]
      exact (hs d hd).2.1

end Uri
