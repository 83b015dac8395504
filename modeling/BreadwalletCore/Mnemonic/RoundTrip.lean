import BreadwalletCore.Mnemonic.Bits
import Mathlib.Data.List.TakeWhile

/-!
# Phrases and entropy

`sentence wl idx` is the phrase with the words `idx`.  `BRBIP39Encode` writes
the phrase for the indices of some entropy, and `BRBIP39Decode` reads indices
from the words in front of the blanks, so that a word which starts another word
is not taken for it.

`strchr` and `word++` step over a blank behind the last word, and the loop ends
there as it does at the NUL.  Such a phrase is valid, and `BRBIP39DeriveKey`
hashes the blank with the rest of the string.
-/

namespace BreadwalletCore

namespace Mnemonic

/-- The phrase with the given words. -/
def sentence (wl : WordList) : List ℕ → List UInt8
  | [] => []
  | [i] => wl.word i
  | i :: j :: idx => wl.word i ++ space :: sentence wl (j :: idx)

variable {wl : WordList}

theorem word_mem
    (wl : WordList)
    {i : ℕ}
    (hi : i < 2048) :
    wl.word i ∈ wl.words := by
  have hlt : i < wl.words.length := by
    rwa [wl.length_words]
  rw [WordList.word, List.getD_eq_getElem _ _ hlt]
  exact List.getElem_mem hlt

theorem sentence_cons
    (wl : WordList) (i : ℕ) {idx : List ℕ}
    (hidx : idx ≠ []) :
    sentence wl (i :: idx) = wl.word i ++ space :: sentence wl idx := by
  obtain ⟨j, idx, rfl⟩ := List.exists_cons_of_ne_nil hidx
  rfl

theorem sentence_concat
    (wl : WordList) {idx : List ℕ} (j : ℕ)
    (hidx : idx ≠ []) :
    sentence wl (idx ++ [j]) = sentence wl idx ++ space :: wl.word j := by
  induction idx with
  | nil =>
      exact absurd rfl hidx
  | cons i idx ih =>
      by_cases hrest : idx = []
      · rw [hrest]
        rfl
      · rw [List.cons_append, sentence_cons wl i (by simp), ih hrest, sentence_cons wl i hrest,
          List.append_assoc, List.cons_append]

theorem sentence_ne_nil
    (wl : WordList) {idx : List ℕ}
    (hlt : ∀ x ∈ idx, x < 2048)
    (hidx : idx ≠ []) :
    sentence wl idx ≠ [] := by
  obtain ⟨i, rest, rfl⟩ := List.exists_cons_of_ne_nil hidx
  have hword := wl.ne_nil _ (word_mem wl (hlt i List.mem_cons_self))
  by_cases hrest : rest = []
  · rw [hrest]
    exact hword
  · rw [sentence_cons wl i hrest]
    simp [hword]

theorem not_mem_sentence
    (wl : WordList) {idx : List ℕ}
    (hlt : ∀ x ∈ idx, x < 2048) :
    (0 : UInt8) ∉ sentence wl idx := by
  induction idx with
  | nil =>
      exact List.not_mem_nil
  | cons i idx ih =>
      have hword := wl.nul_not_mem _ (word_mem wl (hlt i List.mem_cons_self))
      by_cases hrest : idx = []
      · rw [hrest]
        exact hword
      · rw [sentence_cons wl i hrest, List.mem_append, List.mem_cons]
        rintro (hmem | hmem | hmem)
        · exact hword hmem
        · exact absurd hmem (by decide)
        · exact ih (fun x hx => hlt x (List.mem_cons_of_mem _ hx)) hmem

/-- A phrase does not end in a blank. -/
theorem getLast?_sentence
    (wl : WordList) {idx : List ℕ}
    (hlt : ∀ x ∈ idx, x < 2048) :
    (sentence wl idx).getLast? ≠ some space := by
  induction idx using List.reverseRecOn with
  | nil =>
      simp [sentence]
  | append_singleton idx j _ =>
      have hmem := word_mem wl (hlt j (by simp))
      have hword : (wl.word j).getLast? ≠ some space := by
        intro hlast
        exact wl.space_not_mem _ hmem (List.mem_of_getLast? hlast)
      have hne := wl.ne_nil _ hmem
      by_cases hidx : idx = []
      · rw [hidx]
        exact hword
      · rw [sentence_concat wl j hidx, ← List.singleton_append, ← List.append_assoc,
          List.getLast?_append_of_ne_nil _ hne]
        exact hword

/-! ## Encoding -/

theorem length_putSpace
    (phrase : List UInt8) (i len : ℕ) :
    (putSpace phrase i len).length = phrase.length := by
  rw [putSpace]
  split
  · exact List.length_set
  · rfl

/-- A word is copied behind what is there, as far as there is room. -/
theorem putWord_eq
    (phrase front : List UInt8)
    (hfront : phrase.take front.length = front.take phrase.length)
    (word : List UInt8) :
    putWord phrase front.length word =
      (front ++ (word ++ List.replicate phrase.length 0)).take phrase.length := by
  rw [putWord]
  split
  · rename_i hroom
    have hzeros : List.replicate phrase.length (0 : UInt8) =
        List.replicate (phrase.length - front.length) 0 ++ List.replicate front.length 0 := by
      rw [List.replicate_append_replicate, Nat.sub_add_cancel hroom.le]
    have hroom' : phrase.length - front.length ≤
        (word ++ List.replicate (phrase.length - front.length) (0 : UInt8)).length := by
      rw [List.length_append, List.length_replicate]
      omega
    have hcut : (front ++ (word ++ List.replicate phrase.length 0)).take phrase.length =
        front ++ (word ++ List.replicate phrase.length 0).take (phrase.length - front.length) := by
      rw [List.take_append, List.take_of_length_le hroom.le]
    rw [strncpy, hfront, List.take_of_length_le hroom.le, hcut, hzeros, ← List.append_assoc word,
      List.take_append_of_le_length hroom']
  · rename_i hfull
    have hle : phrase.length ≤ front.length := by omega
    rw [List.take_append_of_le_length hle, ← hfront, List.take_of_length_le hle]

theorem take_putSpace
    {phrase front : List UInt8} {i : ℕ}
    (hi : 0 < i)
    (hfront : phrase.take front.length = front.take phrase.length) :
    (putSpace phrase i front.length).take (front ++ [space]).length =
      (front ++ [space]).take phrase.length := by
  rw [List.length_append, List.length_singleton]
  by_cases hroom : front.length < phrase.length
  · have hset : putSpace phrase i front.length = phrase.set front.length space :=
      if_pos ⟨hi, hroom⟩
    have htake : (phrase.set front.length space).take (front.length + 1) =
        front ++ [space] := by
      rw [List.take_set, List.take_succ_eq_append_getElem hroom, hfront,
        List.take_of_length_le hroom.le, List.set_append_right _ _ (le_refl _), Nat.sub_self]
      rfl
    rw [hset, htake, List.take_of_length_le]
    rw [List.length_append, List.length_singleton]
    exact hroom
  · have hkeep : putSpace phrase i front.length = phrase :=
      if_neg (fun h => hroom h.2)
    have hle : phrase.length ≤ front.length := by omega
    rw [hkeep, List.take_of_length_le (by omega), List.take_append_of_le_length hle, ← hfront,
      List.take_of_length_le hle]

/-- What a buffer of `n` bytes holds, if it is long enough. -/
def written (text : List UInt8) (n : ℕ) : List UInt8 :=
  (text ++ List.replicate n 0).take n

theorem length_written
    (text : List UInt8) (n : ℕ) :
    (written text n).length = n := by
  rw [written, List.length_take, List.length_append, List.length_replicate]
  omega

theorem take_written
    (text : List UInt8) (n : ℕ) :
    (written text n).take text.length = text.take (written text n).length := by
  rw [length_written, written, List.take_take, Nat.min_comm, ← List.take_take, List.take_left]

/-- The text of a written buffer ends at the zero behind it. -/
theorem cString_written
    {text : List UInt8} {n : ℕ}
    (htext : (0 : UInt8) ∉ text)
    (hn : text.length < n) :
    cString (written text n) = text := by
  obtain ⟨m, rfl⟩ : ∃ m, n = text.length + (m + 1) := ⟨n - text.length - 1, by omega⟩
  have hall : ∀ b ∈ text, decide (b ≠ 0) = true := by
    intro b hb
    exact decide_eq_true (fun hzero => htext (hzero ▸ hb))
  rw [cString, written, List.take_length_add_append, List.takeWhile_append_of_pos hall,
    List.take_replicate, Nat.min_eq_left (by omega), List.replicate_succ,
    List.takeWhile_cons_of_neg (by simp), List.append_nil]

/-- What the loop has done after `n` words. -/
theorem foldl_encodeStep
    (wl : WordList) (buf : List UInt8) (phrase : Option (List UInt8)) (n : ℕ) :
    (List.range n).foldl (encodeStep wl buf) (phrase, 0) =
      (phrase.map (fun phrase =>
        if n = 0 then phrase
        else written (sentence wl ((List.range n).map (wordIndex buf))) phrase.length),
        (sentence wl ((List.range n).map (wordIndex buf))).length) := by
  induction n with
  | zero =>
      cases phrase <;> rfl
  | succ n ih =>
      rw [List.range_succ, List.foldl_concat, ih, List.map_append, List.map_singleton, encodeStep]
      by_cases hn : n = 0
      · subst hn
        refine Prod.ext ?_ ?_
        · cases phrase with
          | none =>
              rfl
          | some phrase =>
              have hput := putWord_eq phrase [] List.take_nil.symm
                (wl.word (wordIndex buf 0))
              exact congrArg some hput
        · exact Nat.zero_add _
      · have hpos : 0 < n := Nat.pos_of_ne_zero hn
        have hne : (List.range n).map (wordIndex buf) ≠ [] := by
          simpa using hn
        have htext := sentence_concat wl (wordIndex buf n) hne
        have hsucc : ¬ n + 1 = 0 := Nat.succ_ne_zero n
        refine Prod.ext ?_ ?_
        · cases phrase with
          | none =>
              rfl
          | some phrase =>
              simp only [Option.map_some, hn, hpos, hsucc, if_true, if_false]
              generalize htxt : sentence wl ((List.range n).map (wordIndex buf)) = text
              rw [htxt] at htext
              have hspace := take_putSpace hpos (take_written text phrase.length)
              have hlen := length_putSpace (written text phrase.length) n text.length
              rw [length_written] at hspace hlen
              have hput := putWord_eq
                (putSpace (written text phrase.length) n text.length) (text ++ [space]) (by rw [hlen]; exact hspace)
                (wl.word (wordIndex buf n))
              rw [hlen, List.length_append, List.length_singleton] at hput
              rw [hput, htext, written, List.append_assoc, List.append_assoc]
              rfl
        · simp only [hpos, if_true]
          rw [htext, List.length_append, List.length_cons]
          omega

variable (sha256 : List UInt8 → UInt256)

/-- **What `BRBIP39Encode` does.** -/
theorem encode_eq
    (wl : WordList) {k : ℕ} {data : List UInt8}
    (hpos : 0 < k)
    (hk : k ≤ 8)
    (hdata : data.length = 4 * k)
    (phrase : Option (List UInt8)) :
    BRBIP39Encode sha256 wl phrase data =
      (phrase.map (fun phrase => written (sentence wl (indices sha256 data k)) phrase.length),
        if ∀ buf ∈ phrase, (sentence wl (indices sha256 data k)).length + 1 ≤ buf.length
        then (sentence wl (indices sha256 data k)).length + 1 else 0) := by
  have hcount : data.length * 3 / 4 = 3 * k := by
    omega
  have hmod : ¬ data.length % 4 ≠ 0 := by
    omega
  have hne : ¬ 3 * k = 0 := by
    omega
  have hindices := map_wordIndex hk hdata (length_hashBytes (sha256 data))
  rw [BRBIP39Encode, if_neg hmod, hcount]
  simp only [foldl_encodeStep, hindices]
  cases phrase with
  | none =>
      simp only [Option.map_none]
      rw [if_pos (by simp)]
      rfl
  | some phrase =>
      simp only [Option.map_some, hne, if_false, length_written, Option.mem_some_iff,
        forall_eq']
      rfl

/-! ## Decoding -/

/-- The text in front of the first blank. -/
def firstWord (word : List UInt8) : List UInt8 :=
  word.takeWhile (· ≠ space)

/-- The first word, and behind a blank the rest. -/
theorem firstWord_append
    (word : List UInt8) :
    word = firstWord word ++ ((nextWord word).elim [] (space :: ·)) := by
  induction word with
  | nil =>
      rfl
  | cons c rest ih =>
      by_cases hc : c = space
      · rw [firstWord, List.takeWhile_cons_of_neg (by simpa using hc), nextWord, if_pos hc, hc]
        rfl
      · rw [firstWord, List.takeWhile_cons_of_pos (by simpa using hc), nextWord, if_neg hc,
          List.cons_append]
        exact congrArg (c :: ·) ih

theorem firstWord_of_space
    {w : List UInt8}
    (hw : space ∉ w) (rest : List UInt8) :
    firstWord (w ++ space :: rest) = w := by
  rw [firstWord, List.takeWhile_append_of_pos, List.takeWhile_cons_of_neg (by simp),
    List.append_nil]
  exact fun b hb => decide_eq_true (fun h => hw (h ▸ hb))

theorem firstWord_of_end
    {w : List UInt8}
    (hw : space ∉ w) :
    firstWord w = w := by
  refine List.takeWhile_eq_self_iff.mpr ?_
  exact fun b hb => decide_eq_true (fun h => hw (h ▸ hb))

theorem nextWord_append
    {w : List UInt8}
    (hw : space ∉ w) (rest : List UInt8) :
    nextWord (w ++ rest) = nextWord rest := by
  induction w with
  | nil =>
      rfl
  | cons c w ih =>
      have hc : ¬ c = space := fun h => hw (h ▸ List.mem_cons_self)
      rw [List.cons_append, nextWord, if_neg hc, ih (fun h => hw (List.mem_cons_of_mem _ h))]

/-- A word of the list is in front exactly if it is all the text up to the blank. -/
theorem startsWith_iff
    {w word : List UInt8}
    (hw : space ∉ w) :
    startsWith word w = true ↔ w = firstWord word := by
  rw [startsWith, Bool.and_eq_true, List.isPrefixOf_iff_prefix]
  constructor
  · rintro ⟨⟨rest, rfl⟩, hend⟩
    rw [List.drop_left] at hend
    cases rest with
    | nil =>
        rw [List.append_nil, firstWord_of_end hw]
    | cons c rest =>
        have hc : c = space := by
          simpa using hend
        rw [hc, firstWord_of_space hw]
  · intro heq
    have hsplit := firstWord_append word
    rw [← heq] at hsplit
    refine ⟨⟨_, hsplit.symm⟩, ?_⟩
    conv_lhs => rw [hsplit]
    rw [List.drop_left]
    cases nextWord word <;> simp

/-- The scan over the word list. -/
theorem findIdx?_startsWith
    (wl : WordList) (word : List UInt8) (i : ℕ) :
    wl.words.findIdx? (startsWith word) = some i ↔ i < 2048 ∧ wl.word i = firstWord word := by
  have hlen := wl.length_words
  rw [List.findIdx?_eq_some_iff_getElem]
  constructor
  · rintro ⟨hlt, hfound, -⟩
    rw [startsWith_iff (wl.space_not_mem _ (List.getElem_mem _))] at hfound
    refine ⟨by omega, ?_⟩
    rw [WordList.word, List.getD_eq_getElem _ _ hlt, hfound]
  · rintro ⟨hi, hword⟩
    have hlt : i < wl.words.length := by
      omega
    rw [WordList.word, List.getD_eq_getElem _ _ hlt] at hword
    refine ⟨hlt, ?_, ?_⟩
    · rw [startsWith_iff (wl.space_not_mem _ (List.getElem_mem _))]
      exact hword
    · intro j hji hfound
      rw [startsWith_iff (wl.space_not_mem _ (List.getElem_mem _)), ← hword] at hfound
      have heq : j = i := (List.Nodup.getElem_inj_iff wl.nodup).mp hfound
      omega

/-- What is left of the phrase behind the words. -/
def restOf (tail : List UInt8) : Option (List UInt8) :=
  if tail = [] then none else some []

/-- A phrase is read word by word, with or without a blank behind it. -/
theorem decodeLoop_sentence
    (wl : WordList) {idx : List ℕ} {n : ℕ} {tail : List UInt8}
    (hlt : ∀ x ∈ idx, x < 2048)
    (hidx : idx ≠ [])
    (hn : idx.length ≤ n)
    (htail : tail = [] ∨ tail = [space]) :
    decodeLoop wl n (some (sentence wl idx ++ tail)) = (idx, restOf tail) := by
  induction idx generalizing n with
  | nil =>
      exact absurd rfl hidx
  | cons i idx ih =>
      cases n with
      | zero =>
          exact absurd hn (Nat.not_succ_le_zero _)
      | succ n =>
          have hi : i < 2048 := hlt i List.mem_cons_self
          have hmem := word_mem wl hi
          have hspace := wl.space_not_mem _ hmem
          have hne : sentence wl (i :: idx) ++ tail ≠ [] := by
            simp [sentence_ne_nil wl hlt hidx]
          have hend : ∀ m, decodeLoop wl m (restOf tail) = ([], restOf tail) := by
            intro m
            cases m with
            | zero =>
                rfl
            | succ m =>
                rcases htail with rfl | rfl <;> rfl
          rw [decodeLoop, if_neg hne]
          by_cases hrest : idx = []
          · subst hrest
            have hfirst : firstWord (sentence wl [i] ++ tail) = wl.word i := by
              rcases htail with rfl | rfl
              · rw [List.append_nil]
                exact firstWord_of_end hspace
              · exact firstWord_of_space hspace []
            have hnext : nextWord (sentence wl [i] ++ tail) = restOf tail := by
              rw [show sentence wl [i] = wl.word i from rfl, nextWord_append hspace]
              rcases htail with rfl | rfl <;> rfl
            rw [(findIdx?_startsWith wl _ i).mpr ⟨hi, hfirst.symm⟩, hnext, hend]
            rfl
          · have hshape : sentence wl (i :: idx) ++ tail =
                wl.word i ++ space :: (sentence wl idx ++ tail) := by
              rw [sentence_cons wl i hrest, List.append_assoc, List.cons_append]
            have hfirst := firstWord_of_space hspace (sentence wl idx ++ tail)
            have hnext : nextWord (wl.word i ++ space :: (sentence wl idx ++ tail)) =
                some (sentence wl idx ++ tail) := by
              rw [nextWord_append hspace, nextWord, if_pos rfl]
            rw [hshape, (findIdx?_startsWith wl _ i).mpr ⟨hi, hfirst.symm⟩, hnext]
            rw [ih (fun x hx => hlt x (List.mem_cons_of_mem _ hx)) hrest
              (Nat.le_of_succ_le_succ hn)]
            rfl

/-- What has been read, as text. -/
theorem decodeLoop_spec
    (wl : WordList) {n : ℕ} {phrase : List UInt8} {idx : List ℕ} {word : Option (List UInt8)}
    (hloop : decodeLoop wl n (some phrase) = (idx, word)) :
    (∀ x ∈ idx, x < 2048) ∧ idx.length ≤ n ∧
      (idx = [] → word = some phrase) ∧
      (idx ≠ [] → phrase = sentence wl idx ++ word.elim [] (space :: ·)) := by
  induction n generalizing phrase idx word with
  | zero =>
      obtain ⟨rfl, rfl⟩ := Prod.mk.inj hloop
      exact ⟨by simp, le_refl _, fun _ => rfl, fun h => absurd rfl h⟩
  | succ n ih =>
      rw [decodeLoop] at hloop
      by_cases hphrase : phrase = []
      · rw [if_pos hphrase] at hloop
        obtain ⟨rfl, rfl⟩ := Prod.mk.inj hloop
        exact ⟨by simp, by simp, fun _ => rfl, fun h => absurd rfl h⟩
      · rw [if_neg hphrase] at hloop
        cases hfind : wl.words.findIdx? (startsWith phrase) with
        | none =>
            rw [hfind] at hloop
            obtain ⟨rfl, rfl⟩ := Prod.mk.inj hloop
            exact ⟨by simp, by simp, fun _ => rfl, fun h => absurd rfl h⟩
        | some i =>
            rw [hfind] at hloop
            obtain ⟨hi, hword⟩ := (findIdx?_startsWith wl _ _).mp hfind
            have hsplit := firstWord_append phrase
            rw [← hword] at hsplit
            cases hnext : nextWord phrase with
            | none =>
                rw [hnext] at hloop hsplit
                have hstop : decodeLoop wl n none = ([], none) := by
                  cases n <;> rfl
                rw [hstop] at hloop
                obtain ⟨rfl, rfl⟩ := Prod.mk.inj hloop
                refine ⟨?_, by simp, fun h => by simp at h, fun _ => hsplit⟩
                intro x hx
                rwa [List.mem_singleton.mp hx]
            | some next =>
                rw [hnext] at hloop hsplit
                obtain ⟨idx', word', hrec⟩ : ∃ idx' word',
                    decodeLoop wl n (some next) = (idx', word') := ⟨_, _, rfl⟩
                rw [hrec] at hloop
                obtain ⟨rfl, rfl⟩ := Prod.mk.inj hloop
                obtain ⟨hlt, hlen, hempty, htext⟩ := ih hrec
                refine ⟨?_, Nat.succ_le_succ hlen, fun h => by simp at h, fun _ => ?_⟩
                · intro x hx
                  rcases List.mem_cons.mp hx with rfl | hx
                  · exact hi
                  · exact hlt x hx
                · by_cases hidx : idx' = []
                  · have hstop := hempty hidx
                    rw [hidx, id_eq, hstop]
                    exact hsplit
                  · have hnext := htext hidx
                    rw [sentence_cons wl i hidx, id_eq, List.append_assoc, List.cons_append,
                      ← hnext]
                    exact hsplit

/-- The entropy a phrase is decoded to. -/
def entropy (wl : WordList) (phrase : List UInt8) : List UInt8 :=
  ((BRBIP39Decode sha256 wl
    (some (List.replicate (BRBIP39Decode sha256 wl none phrase).2 0)) phrase).1).getD []

/-- The phrase for some entropy, in a buffer of the length asked for. -/
def phraseOf (wl : WordList) (data : List UInt8) : List UInt8 :=
  cString (((BRBIP39Encode sha256 wl
    (some (List.replicate (BRBIP39Encode sha256 wl none data).2 0)) data).1).getD [])

variable {k : ℕ} {data : List UInt8}

/-- Decoding the phrase for some entropy, with or without a blank behind it. -/
theorem decode_sentence
    (wl : WordList)
    (hpos : 0 < k)
    (hk : k ≤ 8)
    (hdata : data.length = 4 * k)
    {tail : List UInt8}
    (htail : tail = [] ∨ tail = [space])
    (buf : Option (List UInt8)) :
    BRBIP39Decode sha256 wl buf (sentence wl (indices sha256 data k) ++ tail) =
      (buf.map (fun buf => if data.length ≤ buf.length
        then data ++ buf.drop data.length else buf),
        if ∀ b ∈ buf, data.length ≤ b.length then data.length else 0) := by
  have hlen := length_indices sha256 data k
  have hlt := indices_lt sha256 data k
  have hentropy := take_decodeBytes_indices sha256 hdata hpos hk
  have hcheck : checksumOk sha256 (indices sha256 data k) = true := by
    rw [checksumOk_iff_indices sha256 hlt hlen hpos hk, hentropy]
  have hloop := decodeLoop_sentence wl (n := 24) hlt
    (List.ne_nil_of_length_pos (by omega)) (by omega) htail
  have hrest : restOf tail = none ∨ restOf tail = some [] := by
    rcases htail with rfl | rfl
    · exact Or.inl rfl
    · exact Or.inr rfl
  have hcount : (indices sha256 data k).length * 4 / 3 = data.length := by
    omega
  have hthree : (indices sha256 data k).length % 3 = 0 := by
    omega
  rw [hcount] at hentropy
  rw [BRBIP39Decode, hloop]
  simp only [hthree, hrest, hcheck, and_self, if_true, hcount]
  cases buf with
  | none =>
      simp
  | some buf =>
      simp only [hentropy, Option.map_some, Option.mem_some_iff, forall_eq']
      split <;> rfl

/-- What a valid phrase is. -/
theorem exists_of_phraseIsValid
    {sha256 : List UInt8 → UInt256}
    {phrase : List UInt8}
    (hvalid : BRBIP39PhraseIsValid sha256 wl phrase = true) :
    ∃ k data tail, 0 < k ∧ k ≤ 8 ∧ data.length = 4 * k ∧ (tail = [] ∨ tail = [space]) ∧
      phrase = sentence wl (indices sha256 data k) ++ tail := by
  obtain ⟨idx, word, hloop⟩ : ∃ idx word, decodeLoop wl 24 (some phrase) = (idx, word) :=
    ⟨_, _, rfl⟩
  rw [BRBIP39PhraseIsValid, BRBIP39Decode, hloop, decide_eq_true_eq] at hvalid
  simp only at hvalid
  split at hvalid
  · rename_i hok
    obtain ⟨hthree, hword, hcheck⟩ := hok
    obtain ⟨hlt, hle, -, htext⟩ := decodeLoop_spec wl hloop
    have hlen : idx.length = 3 * (idx.length / 3) := by
      omega
    have hpos : 0 < idx.length / 3 := by
      omega
    rw [checksumOk_iff_indices sha256 hlt hlen hpos (by omega)] at hcheck
    refine ⟨idx.length / 3, (decodeBytes idx).take (idx.length * 4 / 3),
      word.elim [] (space :: ·), hpos, by omega, ?_, ?_, ?_⟩
    · rw [take_decodeBytes hlt hlen hpos (by omega), length_toBytes]
    · rcases hword with rfl | rfl
      · exact Or.inl rfl
      · exact Or.inr rfl
    · rw [← hcheck]
      exact htext (List.ne_nil_of_length_pos (by omega))
  · exact absurd hvalid (lt_irrefl 0)

theorem entropy_sentence
    (wl : WordList)
    (hpos : 0 < k)
    (hk : k ≤ 8)
    (hdata : data.length = 4 * k)
    {tail : List UInt8}
    (htail : tail = [] ∨ tail = [space]) :
    entropy sha256 wl (sentence wl (indices sha256 data k) ++ tail) = data := by
  have hneed := decode_sentence sha256 wl hpos hk hdata htail none
  simp only [Option.not_mem_none, false_implies, implies_true, if_true] at hneed
  rw [entropy, hneed, decode_sentence sha256 wl hpos hk hdata htail]
  simp

theorem phraseOf_eq
    (wl : WordList)
    (hpos : 0 < k)
    (hk : k ≤ 8)
    (hdata : data.length = 4 * k) :
    phraseOf sha256 wl data = sentence wl (indices sha256 data k) := by
  have hneed := encode_eq sha256 wl hpos hk hdata none
  simp only [Option.not_mem_none, false_implies, implies_true, if_true] at hneed
  rw [phraseOf, hneed, encode_eq sha256 wl hpos hk hdata, Option.map_some, Option.getD_some,
    List.length_replicate]
  exact cString_written (not_mem_sentence wl (indices_lt _ _ _)) (Nat.lt_succ_self _)

/-- **A phrase gives back its entropy.**  A call without a buffer returns the
length of the string with its NUL.  A buffer of at least that length holds the
string after the call, and decoding the string gives the entropy and its
length; a shorter buffer is refused. -/
theorem decode_encode
    (wl : WordList)
    (hpos : 1 ≤ k)
    (hk : k ≤ 8)
    (hdata : data.length = 4 * k)
    (phrase buf : List UInt8) :
    ((BRBIP39Encode sha256 wl none data).2 ≤ phrase.length →
      ∃ after, BRBIP39Encode sha256 wl (some phrase) data =
          (some after, (BRBIP39Encode sha256 wl none data).2) ∧
        (cString after).length + 1 = (BRBIP39Encode sha256 wl none data).2 ∧
        (BRBIP39Decode sha256 wl none (cString after)).2 = data.length ∧
        (data.length ≤ buf.length →
          BRBIP39Decode sha256 wl (some buf) (cString after) =
            (some (data ++ buf.drop data.length), data.length)) ∧
        (buf.length < data.length →
          BRBIP39Decode sha256 wl (some buf) (cString after) = (some buf, 0))) ∧
      (phrase.length < (BRBIP39Encode sha256 wl none data).2 →
        (BRBIP39Encode sha256 wl (some phrase) data).2 = 0) := by
  have hneed := encode_eq sha256 wl hpos hk hdata none
  simp only [Option.not_mem_none, false_implies, implies_true, if_true] at hneed
  rw [hneed, encode_eq sha256 wl hpos hk hdata]
  simp only [Option.map_some, Option.mem_some_iff, forall_eq']
  refine ⟨fun hroom => ⟨_, Prod.ext rfl (if_pos hroom), ?_⟩, fun hshort => if_neg (by omega)⟩
  have htext := cString_written (not_mem_sentence wl (indices_lt sha256 data k))
    (Nat.lt_of_succ_le hroom)
  have hdecode := decode_sentence sha256 wl hpos hk hdata
    (show ([] : List UInt8) = [] ∨ [] = [space] from Or.inl rfl)
  rw [List.append_nil] at hdecode
  rw [htext]
  refine ⟨rfl, ?_, fun hle => ?_, fun hlt => ?_⟩
  · rw [hdecode none]
    simp
  · rw [hdecode (some buf)]
    simp [hle]
  · have hnot : ¬ data.length ≤ buf.length := by
      omega
    rw [hdecode (some buf)]
    simp [hnot]

/-- The word list with the words `"@@"`, `"@A"`, .. -/
def pairWords : WordList where
  words := (List.range 2048).map (fun i => [UInt8.ofNat (64 + i / 64), UInt8.ofNat (64 + i % 64)])
  length_words := by
    rw [List.length_map, List.length_range]
  nodup := by
    refine List.Nodup.map_on ?_ List.nodup_range
    intro i hi j hj heq
    have hi' : i < 2048 := List.mem_range.mp hi
    have hj' : j < 2048 := List.mem_range.mp hj
    obtain ⟨hhigh, htail⟩ := List.cons_eq_cons.mp heq
    have hlow := List.head_eq_of_cons_eq htail
    rw [← UInt8.toNat_inj, UInt8.toNat_ofNat', UInt8.toNat_ofNat'] at hhigh hlow
    omega
  ne_nil := by
    intro w hw
    obtain ⟨i, -, rfl⟩ := List.mem_map.mp hw
    exact List.cons_ne_nil _ _
  space_not_mem := by
    intro w hw
    obtain ⟨i, hi, rfl⟩ := List.mem_map.mp hw
    have hi' : i < 2048 := List.mem_range.mp hi
    simp only [List.mem_cons, List.not_mem_nil, or_false, ← UInt8.toNat_inj, UInt8.toNat_ofNat',
      space, UInt8.reduceToNat]
    omega
  nul_not_mem := by
    intro w hw
    obtain ⟨i, hi, rfl⟩ := List.mem_map.mp hw
    have hi' : i < 2048 := List.mem_range.mp hi
    simp only [List.mem_cons, List.not_mem_nil, or_false, ← UInt8.toNat_inj, UInt8.toNat_ofNat',
      UInt8.reduceToNat]
    omega

/-- Four zero bytes, with the hash that is always zero. -/
theorem decode_encode_zeros :
    ∃ after, BRBIP39Encode (fun _ => 0) pairWords (some (List.replicate 9 0)) [0, 0, 0, 0] =
        (some after, (BRBIP39Encode (fun _ => 0) pairWords none [0, 0, 0, 0]).2) ∧
      BRBIP39Decode (fun _ => 0) pairWords (some [1, 1, 1, 1, 1]) (cString after) =
        (some [0, 0, 0, 0, 1], 4) := by
  have hlong : (BRBIP39Encode (fun _ => 0) pairWords none [0, 0, 0, 0]).2 ≤
      (List.replicate 9 (0 : UInt8)).length := by
    decide +kernel
  obtain ⟨after, hencode, -, -, hdecode, -⟩ :=
    (decode_encode (fun _ => 0) pairWords (by decide) (by decide)
      (show ([0, 0, 0, 0] : List UInt8).length = 4 * 1 from rfl) (List.replicate 9 0) [1, 1, 1, 1, 1]).1 hlong
  exact ⟨after, hencode, hdecode (by decide)⟩

end Mnemonic

end BreadwalletCore
