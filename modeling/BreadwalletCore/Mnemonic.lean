import BreadwalletCore.Data.Digits
import BreadwalletCore.Transaction.Wire

/-!
# Recovery phrases

`BRBIP39Mnemonic.c`.  A C string is the list of its bytes in front of the NUL,
and a buffer is the list of the bytes the caller gives, so that its length is
the argument `phraseLen` or `dataLen`.  `sha256` is arbitrary, and so is the
function `BRPBKDF2` computes with the constants of `BRBIP39DeriveKey`.

The `assert`s on the arguments are not modelled.
-/

namespace BreadwalletCore

open Segment (slice)

namespace Mnemonic

/-- The byte of a blank. -/
def space : UInt8 := 0x20

/-- The argument `wordList`. -/
structure WordList where
  words : List (List UInt8)
  /-- `BIP39_WORDLIST_COUNT` -/
  length_words : words.length = 2048
  nodup : words.Nodup
  ne_nil : ∀ w ∈ words, w ≠ []
  space_not_mem : ∀ w ∈ words, space ∉ w
  nul_not_mem : ∀ w ∈ words, (0 : UInt8) ∉ w

/-- `wordList[i]`. -/
def WordList.word (wl : WordList) (i : ℕ) : List UInt8 :=
  wl.words.getD i []

/-- The string at the start of a buffer. -/
def cString (buf : List UInt8) : List UInt8 :=
  buf.takeWhile (· ≠ 0)

/-- `UInt32GetBE`. -/
def uint32GetBE (buf : List UInt8) (off : ℕ) : ℕ :=
  Digits.value 256 ((slice buf off 4).map UInt8.toNat)

/-- The index of word `i` of the phrase. -/
def wordIndex (buf : List UInt8) (i : ℕ) : ℕ :=
  uint32GetBE buf (i * 11 / 8) >>> (32 - (11 + i * 11 % 8)) % 2048

/-- `strncpy(&phrase[len], word, phraseLen - len)`, which fills up with zeros. -/
def strncpy (phrase : List UInt8) (len : ℕ) (word : List UInt8) : List UInt8 :=
  phrase.take len ++
    (word ++ List.replicate (phrase.length - len) 0).take (phrase.length - len)

/-- The assignment `phrase[len] = ' '`. -/
def putSpace (phrase : List UInt8) (i len : ℕ) : List UInt8 :=
  if 0 < i ∧ len < phrase.length then phrase.set len space else phrase

/-- The copy of a word. -/
def putWord (phrase : List UInt8) (len : ℕ) (word : List UInt8) : List UInt8 :=
  if len < phrase.length then strncpy phrase len word else phrase

/-- An iteration of the loop of `BRBIP39Encode`, on `phrase` and `len`. -/
def encodeStep (wl : WordList) (buf : List UInt8)
    (st : Option (List UInt8) × ℕ) (i : ℕ) : Option (List UInt8) × ℕ :=
  let word := wl.word (wordIndex buf i)
  let phrase := st.1.map (fun phrase => putSpace phrase i st.2)
  let len := if 0 < i then st.2 + 1 else st.2
  (phrase.map (fun phrase => putWord phrase len word), len + word.length)

/-- `BRBIP39Encode`: the buffer afterwards, and the value returned. -/
def BRBIP39Encode (sha256 : List UInt8 → UInt256) (wl : WordList)
    (phrase : Option (List UInt8)) (data : List UInt8) : Option (List UInt8) × ℕ :=
  if data.length % 4 ≠ 0 then (phrase, 0)
  else
    let buf := data ++ hashBytes (sha256 data)
    let st := (List.range (data.length * 3 / 4)).foldl (encodeStep wl buf) (phrase, 0)
    match st.1 with
    | none => (none, st.2 + 1)
    | some phrase => (some phrase, if st.2 + 1 ≤ phrase.length then st.2 + 1 else 0)

/-- The string `word` starts with `w`, and there is a blank or the end behind it. -/
def startsWith (word w : List UInt8) : Bool :=
  w.isPrefixOf word && ((word.drop w.length).head?.all (· == space))

/-- `strchr(word, ' ')` and `word++`. -/
def nextWord : List UInt8 → Option (List UInt8)
  | [] => none
  | c :: rest => if c = space then some rest else nextWord rest

/-- The `while` loop of `BRBIP39Decode`, with the number of iterations left:
the indices found, and `word`. -/
def decodeLoop (wl : WordList) : ℕ → Option (List UInt8) → List ℕ × Option (List UInt8)
  | 0, word => ([], word)
  | _ + 1, none => ([], none)
  | n + 1, some word =>
      if word = [] then ([], some word)
      else
        match wl.words.findIdx? (startsWith word) with
        | none => ([], some word)
        | some i => ((decodeLoop wl n (nextWord word)).map (i :: ·) id)

/-- Byte `i` out of the indices. -/
def decodeByte (idx : List ℕ) (i : ℕ) : UInt8 :=
  let x := idx.getD (i * 8 / 11) 0
  let y := if i * 8 / 11 + 1 < idx.length then idx.getD (i * 8 / 11 + 1) 0 else 0
  UInt8.ofNat ((x * 2048 + y) >>> ((i * 8 / 11 + 2) * 11 - (i + 1) * 8) % 256)

/-- The bytes out of the indices. -/
def decodeBytes (idx : List ℕ) : List UInt8 :=
  (List.range ((idx.length * 11 + 7) / 8)).map (decodeByte idx)

/-- The bits of the checksum agree. -/
def checksumOk (sha256 : List UInt8 → UInt256) (idx : List ℕ) : Bool :=
  let hash := hashBytes (sha256 ((decodeBytes idx).take (idx.length * 4 / 3)))
  ((decodeBytes idx).getLast?.getD 0).toNat >>> (8 - idx.length / 3) ==
    (hash.getD 0 0).toNat >>> (8 - idx.length / 3)

/-- `BRBIP39Decode`: the buffer afterwards, and the value returned. -/
def BRBIP39Decode (sha256 : List UInt8 → UInt256) (wl : WordList)
    (data : Option (List UInt8)) (phrase : List UInt8) : Option (List UInt8) × ℕ :=
  let (idx, word) := decodeLoop wl 24 (some phrase)
  let ok := idx.length % 3 = 0 ∧ (word = none ∨ word = some []) ∧ checksumOk sha256 idx
  let r := if ok then idx.length * 4 / 3 else 0
  match data with
  | none => (none, r)
  | some data =>
      if r ≤ data.length then (some ((decodeBytes idx).take r ++ data.drop r), r)
      else (some data, 0)

/-- `BRBIP39PhraseIsValid`. -/
def BRBIP39PhraseIsValid (sha256 : List UInt8 → UInt256) (wl : WordList)
    (phrase : List UInt8) : Bool :=
  0 < (BRBIP39Decode sha256 wl none phrase).2

/-- The string `"mnemonic"`. -/
def mnemonic : List UInt8 :=
  [0x6d, 0x6e, 0x65, 0x6d, 0x6f, 0x6e, 0x69, 0x63]

/-- `BRBIP39DeriveKey`: `BRPBKDF2` of the raw string and the salt. -/
def BRBIP39DeriveKey (pbkdf2 : List UInt8 → List UInt8 → List UInt8)
    (phrase : List UInt8) (passphrase : Option (List UInt8)) : List UInt8 :=
  pbkdf2 phrase (mnemonic ++ passphrase.getD [])

end Mnemonic

end BreadwalletCore
