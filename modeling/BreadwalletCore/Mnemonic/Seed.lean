import BreadwalletCore.Mnemonic.RoundTrip

/-!
# Phrases and seeds

`BRBIP39PhraseIsValid` accepts the phrases `BRBIP39Encode` writes, and each of
them with one blank behind it.  `BRBIP39DeriveKey` hashes the string as it is,
so the blank gives another seed.
-/

namespace BreadwalletCore

namespace Mnemonic

variable {sha256 : List UInt8 → UInt256} {wl : WordList} {p : List UInt8}

/-- A valid phrase is the phrase for its entropy, or that with a blank behind it. -/
theorem eq_phraseOf_append
    (hvalid : BRBIP39PhraseIsValid sha256 wl p = true) :
    (phraseOf sha256 wl (entropy sha256 wl p)).getLast? ≠ some space ∧
      (p = phraseOf sha256 wl (entropy sha256 wl p) ∨
        p = phraseOf sha256 wl (entropy sha256 wl p) ++ [space]) := by
  obtain ⟨k, data, tail, hpos, hk, hdata, htail, rfl⟩ := exists_of_phraseIsValid hvalid
  rw [entropy_sentence sha256 wl hpos hk hdata htail, phraseOf_eq sha256 wl hpos hk hdata]
  refine ⟨getLast?_sentence wl (indices_lt _ _ _), ?_⟩
  rcases htail with rfl | rfl
  · exact Or.inl (List.append_nil _)
  · exact Or.inr rfl

theorem eq_phraseOf_iff
    (hvalid : BRBIP39PhraseIsValid sha256 wl p = true) :
    p = phraseOf sha256 wl (entropy sha256 wl p) ↔ p.getLast? ≠ some space := by
  obtain ⟨hlast, htail⟩ := eq_phraseOf_append hvalid
  rcases htail with heq | heq
  · rw [← heq] at hlast
    exact iff_of_true heq hlast
  · refine iff_of_false ?_ (fun h => h ?_)
    · intro h
      have hlen := congrArg List.length (h.symm.trans heq)
      simp at hlen
    · rw [heq, List.getLast?_concat]

/-- **One phrase, one seed.**  A valid phrase is the phrase for its entropy
exactly if it does not end in a blank.  Two valid phrases with one entropy are
hashed to the same key, whatever the hash, exactly if both of them or none end
in a blank. -/
theorem phraseIsValid_iff_no_blank
    (hvalid : BRBIP39PhraseIsValid sha256 wl p = true) :
    (p = phraseOf sha256 wl (entropy sha256 wl p) ↔ p.getLast? ≠ some space) ∧
      ∀ q, BRBIP39PhraseIsValid sha256 wl q = true →
        entropy sha256 wl q = entropy sha256 wl p →
        ((∀ pbkdf2 passphrase,
            BRBIP39DeriveKey pbkdf2 q passphrase = BRBIP39DeriveKey pbkdf2 p passphrase) ↔
          (q.getLast? = some space ↔ p.getLast? = some space)) := by
  refine ⟨eq_phraseOf_iff hvalid, fun q hq hentropy => ⟨fun hsame => ?_, fun hends => ?_⟩⟩
  · have heq : q = p := hsame (fun phrase _ => phrase) none
    rw [heq]
  · have heq : q = p := by
      have hpq := eq_phraseOf_iff hvalid
      have hqq := eq_phraseOf_iff hq
      rw [hentropy] at hqq
      by_cases hblank : p.getLast? = some space
      · obtain ⟨hlast, hp⟩ := eq_phraseOf_append hvalid
        obtain ⟨-, hq'⟩ := eq_phraseOf_append hq
        rw [hentropy] at hq'
        have hp' := hp.resolve_left (fun h => hpq.mp h hblank)
        have hq'' := hq'.resolve_left (fun h => hqq.mp h (hends.mpr hblank))
        exact hq''.trans hp'.symm
      · have hq' := hqq.mpr (fun h => hblank (hends.mp h))
        exact hq'.trans (hpq.mpr hblank).symm
    intro pbkdf2 passphrase
    rw [heq]

/-- The phrase `"@@ @@ @@"`, with the hash that is always zero. -/
theorem zeros_valid
    {tail : List UInt8}
    (htail : tail = [] ∨ tail = [space]) :
    BRBIP39PhraseIsValid (fun _ => 0) pairWords
      ([0x40, 0x40, 0x20, 0x40, 0x40, 0x20, 0x40, 0x40] ++ tail) = true := by
  have hdecode := decode_sentence (fun _ => 0) pairWords (by decide) (by decide)
    (show ([0, 0, 0, 0] : List UInt8).length = 4 * 1 from rfl) htail none
  have hindices : indices (fun _ => 0) [0, 0, 0, 0] 1 = [0, 0, 0] := by
    decide +kernel
  have htext : sentence pairWords [0, 0, 0] =
      [0x40, 0x40, 0x20, 0x40, 0x40, 0x20, 0x40, 0x40] := by
    decide +kernel
  rw [hindices, htext] at hdecode
  rw [BRBIP39PhraseIsValid, hdecode]
  rfl

theorem phraseIsValid_iff_no_blank_zeros :
    [0x40, 0x40, 0x20, 0x40, 0x40, 0x20, 0x40, 0x40] =
      phraseOf (fun _ => 0) pairWords
        (entropy (fun _ => 0) pairWords [0x40, 0x40, 0x20, 0x40, 0x40, 0x20, 0x40, 0x40]) :=
  (phraseIsValid_iff_no_blank (zeros_valid (Or.inl rfl))).1.mpr (by decide)

/-- `"@@ @@ @@ "` is valid, and it is not the phrase for its entropy. -/
theorem not_eq_phraseOf :
    ¬ ∀ (sha256 : List UInt8 → UInt256) (wl : WordList) (p : List UInt8),
      (0 : UInt8) ∉ p → BRBIP39PhraseIsValid sha256 wl p = true →
        p = phraseOf sha256 wl (entropy sha256 wl p) := by
  intro hclaim
  have hvalid := zeros_valid (show [space] = [] ∨ [space] = [space] from Or.inr rfl)
  have heq := hclaim (fun _ => 0) pairWords _ (by decide) hvalid
  exact (eq_phraseOf_iff hvalid).mp heq (by decide)

end Mnemonic

end BreadwalletCore
