import BreadwalletCore.Data.CheckedInt
import BreadwalletCore.Data.LittleEndian
import BreadwalletCore.Data.Machine
import BreadwalletCore.Data.Segment
import BreadwalletCore.Platform.Tar

/-!
# Binary patches

`BRBSPatch.patch`.  The three streams of a patch are given by the bytes that
`BZ2_bzRead` takes from them; the files can be opened, and the result can be
written.

`bspatch` is the same algorithm on integers without bounds.
-/

namespace BreadwalletCore

open Segment (slice)
open CheckedInt (Fits checked checked_eq checked_eq_error)

namespace BRBSPatch

/-- How `patch` fails: it throws, an operation traps, or an index is outside of a
buffer. -/
inductive BSPatchError
  | thrown
  | trapped
  | outOfBounds
deriving DecidableEq

/-- `offtin`. -/
def offtin (b : List UInt8) : ℤ :=
  let y : ℤ := LittleEndian.value (b.take 7 ++ [b.getD 7 0 &&& 0x7f])
  if b.getD 7 0 &&& 0x80 ≠ 0 then -y else y

theorem offtin_bounds
    (b : List UInt8) :
    -2 ^ 63 < offtin b ∧ offtin b < 2 ^ 63 := by
  have hy : LittleEndian.value (b.take 7 ++ [b.getD 7 0 &&& 0x7f]) < 2 ^ 63 := by
    have hlow := LittleEndian.value_lt (b.take 7)
    have hlen : (b.take 7).length ≤ 7 := List.length_take_le _ _
    have hpow : 256 ^ (b.take 7).length ≤ 256 ^ 7 := Nat.pow_le_pow_right (by omega) hlen
    have htop : (b.getD 7 0 &&& 0x7f).toNat ≤ 127 := by
      rw [UInt8.toNat_and]
      exact Nat.and_le_right
    have hvalue : LittleEndian.value [b.getD 7 0 &&& 0x7f] ≤ 127 := by
      rw [LittleEndian.value, LittleEndian.value]
      omega
    rw [LittleEndian.value_append]
    calc LittleEndian.value (b.take 7) + 256 ^ (b.take 7).length *
          LittleEndian.value [b.getD 7 0 &&& 0x7f]
        ≤ LittleEndian.value (b.take 7) + 256 ^ (b.take 7).length * 127 :=
          Nat.add_le_add_left (Nat.mul_le_mul_left _ hvalue) _
      _ < 256 ^ (b.take 7).length * 128 := by omega
      _ ≤ 256 ^ 7 * 128 := Nat.mul_le_mul_right _ hpow
      _ = 2 ^ 63 := by norm_num
  rw [offtin]
  split_ifs <;> constructor <;> omega

/-- Three numbers of the control stream. -/
structure Control where
  add : ℤ
  insert : ℤ
  seek : ℤ
  add_bounds : -2 ^ 63 < add ∧ add < 2 ^ 63
  insert_bounds : -2 ^ 63 < insert ∧ insert < 2 ^ 63

/-- The triples of the control stream; what is left behind them is too short. -/
def controls (ctrl : List UInt8) : List Control :=
  (List.range (ctrl.length / 24)).map (fun k =>
    { add := offtin (slice ctrl (24 * k) 8)
      insert := offtin (slice ctrl (24 * k + 8) 8)
      seek := offtin (slice ctrl (24 * k + 16) 8)
      add_bounds := offtin_bounds _
      insert_bounds := offtin_bounds _ })

/-- `BZ2_bzRead` and the check of what it returns. -/
def bzRead (stream : List UInt8) (len : ℤ) : Except BSPatchError (List UInt8 × List UInt8) :=
  if len < 0 ∨ stream.length < len then .error .thrown
  else .ok (stream.take len.toNat, stream.drop len.toNat)

/-- The two streams, the positions, and the bytes of `new` in front of `newPos`. -/
structure PatchState where
  diff : List UInt8
  extra : List UInt8
  oldPos : ℤ := 0
  newPos : ℤ := 0
  new : List UInt8 := []

/-- A block of bytes at `newPos`, which has to be in `new`. -/
def store (newSize : ℤ) (new : List UInt8) (newPos : ℤ) (block : List UInt8) :
    Except BSPatchError (List UInt8) :=
  if 0 ≤ newPos ∧ newPos + block.length ≤ newSize then .ok (new.take newPos.toNat ++ block)
  else .error .outOfBounds

/-- The byte to add at a position: none if it is not in the old file. -/
def readOld (old : List UInt8) (p : ℤ) : Except BSPatchError UInt8 :=
  if 0 ≤ p ∧ p < old.length then (old[p.toNat]?).elim (.error .outOfBounds) .ok else .ok 0

/-- The loop that adds the old data to a block, from its byte `i` on. -/
def addOld (old : List UInt8) (oldPos : ℤ) : ℕ → List UInt8 → Except BSPatchError (List UInt8)
  | _, [] => .ok []
  | i, d :: ds => do
      let p ← checked .trapped 64 (oldPos + i)
      let o ← readOld old p
      let rest ← addOld old oldPos (i + 1) ds
      .ok ((d + o) :: rest)

/-- A string of a length of the control stream, which has to end in the new file. -/
def readString (newSize newPos : ℤ) (stream : List UInt8) (len : ℤ) :
    Except BSPatchError (List UInt8 × List UInt8) := do
  let stop ← checked .trapped 64 (newPos + len)
  if stop > newSize then .error .thrown
  else
    let len ← checked .trapped 32 len
    bzRead stream len

/-- The part of an iteration that reads the diff string. -/
def patchDiff (old : List UInt8) (newSize : ℤ) (c : Control) (s : PatchState) :
    Except BSPatchError PatchState := do
  let r ← readString newSize s.newPos s.diff c.add
  let _ ← store newSize s.new s.newPos r.1
  let block ← addOld old s.oldPos 0 r.1
  let new ← store newSize s.new s.newPos block
  let newPos ← checked .trapped 64 (s.newPos + c.add)
  let oldPos ← checked .trapped 64 (s.oldPos + c.add)
  .ok { s with diff := r.2, new := new, newPos := newPos, oldPos := oldPos }

/-- The part of an iteration that reads the extra string. -/
def patchExtra (newSize : ℤ) (c : Control) (s : PatchState) :
    Except BSPatchError PatchState := do
  let r ← readString newSize s.newPos s.extra c.insert
  let new ← store newSize s.new s.newPos r.1
  let newPos ← checked .trapped 64 (s.newPos + c.insert)
  let oldPos ← checked .trapped 64 (s.oldPos + c.seek)
  .ok { s with extra := r.2, new := new, newPos := newPos, oldPos := oldPos }

/-- The loop of `patch`. -/
def patchLoop (old : List UInt8) (newSize : ℤ) :
    List Control → PatchState → Except BSPatchError (List UInt8)
  | [], s => if s.newPos < newSize then .error .thrown else .ok s.new
  | c :: cs, s =>
      if s.newPos < newSize then do
        let s ← patchDiff old newSize c s
        let s ← patchExtra newSize c s
        patchLoop old newSize cs s
      else .ok s.new

/-- "BSDIFF40". -/
def bsdiff40 : List UInt8 := [0x42, 0x53, 0x44, 0x49, 0x46, 0x46, 0x34, 0x30]

def bzCrtlLen (header : List UInt8) : ℤ := offtin (slice header 8 8)

def bzDataLen (header : List UInt8) : ℤ := offtin (slice header 16 8)

def newSize (header : List UInt8) : ℤ := offtin (slice header 24 8)

/-- `patch`.  A magic that is not ASCII is no string, and is not compared. -/
def patch (old header ctrl diff extra : List UInt8) : Except BSPatchError (List UInt8) :=
  if header.length ≠ 32 then .error .thrown
  else if BRTar.isAscii (header.take 8) = true ∧ header.take 8 ≠ bsdiff40 then .error .thrown
  else if bzCrtlLen header < 0 ∨ bzDataLen header < 0 ∨ newSize header < 0 then .error .thrown
  else do
    let dpfStart ← checked .trapped 64 (32 + bzCrtlLen header)
    let _ ← checked .trapped 64 (dpfStart + bzDataLen header)
    let _ ← checked .trapped 64 (newSize header + 1)
    patchLoop old (newSize header) (controls ctrl) { diff := diff, extra := extra }

/-! ## The reference -/

/-- The bytes of the old file that belong to a block, and zeros outside of it. -/
def oldByte (old : List UInt8) (p : ℤ) : UInt8 :=
  if 0 ≤ p then old.getD p.toNat 0 else 0

/-- A block with the old data added. -/
def added (old : List UInt8) (oldPos : ℤ) (block : List UInt8) : List UInt8 :=
  block.zipIdx.map (fun d => d.1 + oldByte old (oldPos + d.2))

/-- A string of `len` bytes is in the stream and in the rest of the new file. -/
def Taken (room : ℤ) (stream : List UInt8) (len : ℤ) : Prop :=
  0 ≤ len ∧ len ≤ room ∧ len ≤ stream.length

instance (room : ℤ) (stream : List UInt8) (len : ℤ) : Decidable (Taken room stream len) :=
  inferInstanceAs (Decidable (_ ∧ _ ∧ _))

/-- The rest of the new file from a position on, unless the patch is corrupt. -/
def bspatch (old : List UInt8) (newSize : ℤ) :
    List Control → PatchState → Option (List UInt8)
  | [], s => if s.newPos < newSize then none else some []
  | c :: cs, s =>
      if s.newPos < newSize then
        if Taken (newSize - s.newPos) s.diff c.add then
          if Taken (newSize - (s.newPos + c.add)) s.extra c.insert then
            (bspatch old newSize cs
              { diff := s.diff.drop c.add.toNat
                extra := s.extra.drop c.insert.toNat
                oldPos := s.oldPos + c.add + c.seek
                newPos := s.newPos + c.add + c.insert }).map (fun rest =>
              added old s.oldPos (s.diff.take c.add.toNat) ++ s.extra.take c.insert.toNat ++ rest)
          else none
        else none
      else some []

/-- The end of a string has 64 bits, and a length that is read has 32. -/
def LengthFits (newSize newPos len : ℤ) : Prop :=
  newPos + len < 2 ^ 63 ∧ (newPos + len ≤ newSize → Fits 32 len)

/-- The numbers of the control stream fit, up to the triple at which the patch ends
or is seen to be corrupt. -/
def ControlsFit (newSize : ℤ) : List Control → PatchState → Prop
  | [], _ => True
  | c :: cs, s =>
      s.newPos < newSize →
        LengthFits newSize s.newPos c.add ∧
        (Taken (newSize - s.newPos) s.diff c.add →
          s.oldPos + c.add < 2 ^ 63 ∧
          LengthFits newSize (s.newPos + c.add) c.insert ∧
          (Taken (newSize - (s.newPos + c.add)) s.extra c.insert →
            Fits 64 (s.oldPos + c.add + c.seek) ∧
            ControlsFit newSize cs
              { diff := s.diff.drop c.add.toNat
                extra := s.extra.drop c.insert.toNat
                oldPos := s.oldPos + c.add + c.seek
                newPos := s.newPos + c.add + c.insert }))

/-- The control stream fills the new file, and every string it names can be taken. -/
def Complete (newSize : ℤ) : List Control → PatchState → Prop
  | [], s => newSize ≤ s.newPos
  | c :: cs, s =>
      s.newPos < newSize →
        Taken (newSize - s.newPos) s.diff c.add ∧
        Taken (newSize - (s.newPos + c.add)) s.extra c.insert ∧
        Complete newSize cs
          { diff := s.diff.drop c.add.toNat
            extra := s.extra.drop c.insert.toNat
            oldPos := s.oldPos + c.add + c.seek
            newPos := s.newPos + c.add + c.insert }

/-- The header is taken for that of a patch. -/
structure Accepted (header : List UInt8) : Prop where
  length : header.length = 32
  magic : BRTar.isAscii (header.take 8) = true → header.take 8 = bsdiff40
  bzCrtlLen : 0 ≤ bzCrtlLen header
  bzDataLen : 0 ≤ bzDataLen header
  newSize : 0 ≤ newSize header

/-- What `patch` is for: it throws, or gives the file of the reference, and it
throws at a wrong magic. -/
structure Right (old header ctrl diff extra : List UInt8) : Prop where
  magic : header.take 8 ≠ bsdiff40 → patch old header ctrl diff extra = .error .thrown
  result : patch old header ctrl diff extra = .error .thrown ∨
    ∃ new, patch old header ctrl diff extra = .ok new ∧
      bspatch old (newSize header) (controls ctrl) { diff := diff, extra := extra } = some new ∧
      (new.length : ℤ) = newSize header

/-! ## One triple -/

theorem readOld_eq
    (old : List UInt8) (p : ℤ) :
    readOld old p = .ok (oldByte old p) := by
  rw [readOld, oldByte]
  by_cases hlow : 0 ≤ p
  · by_cases hhigh : p < old.length
    · have hlt : p.toNat < old.length := by omega
      rw [if_pos ⟨hlow, hhigh⟩, if_pos hlow, List.getElem?_eq_getElem hlt,
        List.getD_eq_getElem?_getD, List.getElem?_eq_getElem hlt]
      rfl
    · rw [if_neg (fun h => hhigh h.2), if_pos hlow, List.getD_eq_default _ _ (by omega)]
  · rw [if_neg (fun h => hlow h.1), if_neg hlow]

/-- The old data are added as far as the positions have 64 bits. -/
theorem addOld_eq
    {old block : List UInt8} {oldPos : ℤ} {i : ℕ}
    (hlow : -2 ^ 63 ≤ oldPos)
    (hhigh : oldPos + i + block.length ≤ 2 ^ 63) :
    addOld old oldPos i block =
      .ok ((block.zipIdx i).map (fun d => d.1 + oldByte old (oldPos + d.2))) := by
  induction block generalizing i with
  | nil =>
      rfl
  | cons d ds ih =>
      rw [List.length_cons] at hhigh
      have hfits : Fits 64 (oldPos + i) := CheckedInt.fits_64_iff.mpr (by omega)
      rw [addOld, checked_eq hfits, Machine.ok_bind, readOld_eq, Machine.ok_bind,
        ih (by push_cast at hhigh ⊢; omega), Machine.ok_bind]
      rfl

theorem addOld_trapped
    {old block : List UInt8} {oldPos : ℤ} {i : ℕ}
    (hblock : block ≠ [])
    (hhigh : 2 ^ 63 < oldPos + i + block.length) :
    addOld old oldPos i block = .error .trapped := by
  induction block generalizing i with
  | nil =>
      exact absurd rfl hblock
  | cons d ds ih =>
      rw [List.length_cons] at hhigh
      by_cases hfits : Fits 64 (oldPos + i)
      · have hds : ds ≠ [] := by
          rintro rfl
          rw [CheckedInt.fits_64_iff] at hfits
          push_cast at hhigh
          simp only [List.length_nil, Nat.cast_zero] at hhigh
          omega
        rw [addOld, checked_eq hfits, Machine.ok_bind, readOld_eq, Machine.ok_bind,
          ih hds (by push_cast at hhigh ⊢; omega)]
        rfl
      · rw [addOld, checked_eq_error hfits]
        rfl

/-- The loop between two triples. -/
structure Inv (newSize : ℤ) (s : PatchState) : Prop where
  size : newSize < 2 ^ 63
  oldPos : Fits 64 s.oldPos
  newPos : 0 ≤ s.newPos ∧ s.newPos ≤ newSize
  new : (s.new.length : ℤ) = s.newPos

variable {old : List UInt8} {newSize : ℤ} {c : Control} {s : PatchState}

theorem store_eq
    {block : List UInt8}
    (hinv : Inv newSize s)
    (hroom : s.newPos + block.length ≤ newSize) :
    store newSize s.new s.newPos block = .ok (s.new ++ block) := by
  have hlen : s.newPos.toNat = s.new.length := by
    rw [← hinv.new]
    rfl
  rw [store, if_pos ⟨hinv.newPos.1, hroom⟩, hlen, List.take_length]

theorem bzRead_eq
    {stream : List UInt8} {len room : ℤ}
    (h : Taken room stream len) :
    bzRead stream len = .ok (stream.take len.toNat, stream.drop len.toNat) := by
  have h₁ := h.1
  have h₃ := h.2.2
  rw [bzRead, if_neg (by omega)]

theorem bzRead_thrown
    {stream : List UInt8} {len room : ℤ}
    (hroom : len ≤ room)
    (h : ¬ Taken room stream len) :
    bzRead stream len = .error .thrown := by
  rw [bzRead, if_pos]
  by_contra hnot
  exact h ⟨by omega, hroom, by omega⟩

theorem length_take_taken
    {stream : List UInt8} {len room : ℤ}
    (h : Taken room stream len) :
    ((stream.take len.toNat).length : ℤ) = len := by
  have h₁ := h.1
  have h₃ := h.2.2
  rw [List.length_take]
  omega

theorem fits_stop_iff
    {newPos len : ℤ}
    (hpos : 0 ≤ newPos)
    (hlen : -2 ^ 63 < len) :
    Fits 64 (newPos + len) ↔ newPos + len < 2 ^ 63 := by
  rw [CheckedInt.fits_64_iff]
  omega

section ReadString

variable {newPos len : ℤ} {stream : List UInt8}

theorem readString_trapped
    (hpos : 0 ≤ newPos)
    (hlen : -2 ^ 63 < len)
    (h : ¬ LengthFits newSize newPos len) :
    readString newSize newPos stream len = .error .trapped := by
  by_cases hsum : newPos + len < 2 ^ 63
  · rw [readString, checked_eq ((fits_stop_iff hpos hlen).mpr hsum), Machine.ok_bind]
    have hroom : newPos + len ≤ newSize := by
      by_contra hnot
      exact h ⟨hsum, fun hle => absurd hle hnot⟩
    rw [if_neg (by omega), checked_eq_error (fun h32 => h ⟨hsum, fun _ => h32⟩)]
    rfl
  · rw [readString, checked_eq_error (fun hf => hsum ((fits_stop_iff hpos hlen).mp hf))]
    rfl

theorem readString_thrown
    (hpos : 0 ≤ newPos)
    (hlen : -2 ^ 63 < len)
    (hfits : LengthFits newSize newPos len)
    (h : ¬ Taken (newSize - newPos) stream len) :
    readString newSize newPos stream len = .error .thrown := by
  rw [readString, checked_eq ((fits_stop_iff hpos hlen).mpr hfits.1), Machine.ok_bind]
  by_cases hroom : newPos + len ≤ newSize
  · rw [if_neg (by omega), checked_eq (hfits.2 hroom), Machine.ok_bind]
    exact bzRead_thrown (by omega) h
  · rw [if_pos (by omega)]

theorem readString_eq
    (hpos : 0 ≤ newPos)
    (hfits : LengthFits newSize newPos len)
    (h : Taken (newSize - newPos) stream len) :
    readString newSize newPos stream len = .ok (stream.take len.toNat, stream.drop len.toNat) := by
  have hroom := h.2.1
  have hlen := h.1
  rw [readString, checked_eq ((fits_stop_iff hpos (by omega)).mpr hfits.1), Machine.ok_bind,
    if_neg (by omega), checked_eq (hfits.2 (by omega)), Machine.ok_bind, bzRead_eq h]

end ReadString

/-- What `patchDiff` does. -/
theorem patchDiff_trapped
    (hinv : Inv newSize s)
    (h : ¬ (LengthFits newSize s.newPos c.add ∧
      (Taken (newSize - s.newPos) s.diff c.add → s.oldPos + c.add < 2 ^ 63))) :
    patchDiff old newSize c s = .error .trapped := by
  by_cases hfits : LengthFits newSize s.newPos c.add
  · have htaken : Taken (newSize - s.newPos) s.diff c.add := by
      by_contra hnot
      exact h ⟨hfits, fun ht => absurd ht hnot⟩
    have hold : ¬ s.oldPos + c.add < 2 ^ 63 := fun hold => h ⟨hfits, fun _ => hold⟩
    have hlen := length_take_taken htaken
    have hroom := htaken.2.1
    have hpos := CheckedInt.fits_64_iff.mp hinv.oldPos
    rw [patchDiff, readString_eq hinv.newPos.1 hfits htaken, Machine.ok_bind]
    dsimp only
    rw [store_eq hinv (by omega), Machine.ok_bind]
    by_cases hadd : s.oldPos + c.add ≤ 2 ^ 63
    · -- only the last sum is too large
      rw [addOld_eq (by omega) (by push_cast; omega), Machine.ok_bind,
        store_eq hinv (by simp only [List.length_map, List.length_zipIdx]; omega),
        Machine.ok_bind, checked_eq ((fits_stop_iff hinv.newPos.1 c.add_bounds.1).mpr hfits.1),
        Machine.ok_bind, checked_eq_error (by rw [CheckedInt.fits_64_iff]; omega)]
      rfl
    · have hne : s.diff.take c.add.toNat ≠ [] := by
        intro hnil
        rw [hnil] at hlen
        simp only [List.length_nil, Nat.cast_zero] at hlen
        omega
      rw [addOld_trapped hne (by push_cast; omega)]
      rfl
  · rw [patchDiff, readString_trapped hinv.newPos.1 c.add_bounds.1 hfits]
    rfl

theorem patchDiff_thrown
    (hinv : Inv newSize s)
    (hfits : LengthFits newSize s.newPos c.add)
    (h : ¬ Taken (newSize - s.newPos) s.diff c.add) :
    patchDiff old newSize c s = .error .thrown := by
  rw [patchDiff, readString_thrown hinv.newPos.1 c.add_bounds.1 hfits h]
  rfl

theorem patchDiff_eq
    (hinv : Inv newSize s)
    (hfits : LengthFits newSize s.newPos c.add)
    (htaken : Taken (newSize - s.newPos) s.diff c.add)
    (hold : s.oldPos + c.add < 2 ^ 63) :
    patchDiff old newSize c s = .ok { s with
      diff := s.diff.drop c.add.toNat
      new := s.new ++ added old s.oldPos (s.diff.take c.add.toNat)
      newPos := s.newPos + c.add
      oldPos := s.oldPos + c.add } := by
  have hlen := length_take_taken htaken
  have hroom := htaken.2.1
  have hpos := htaken.1
  have hlow := CheckedInt.fits_64_iff.mp hinv.oldPos
  rw [patchDiff, readString_eq hinv.newPos.1 hfits htaken, Machine.ok_bind]
  dsimp only
  rw [store_eq hinv (by omega), Machine.ok_bind,
    addOld_eq (by omega) (by push_cast; omega), Machine.ok_bind,
    store_eq hinv (by simp only [List.length_map, List.length_zipIdx]; omega), Machine.ok_bind,
    checked_eq ((fits_stop_iff hinv.newPos.1 c.add_bounds.1).mpr hfits.1), Machine.ok_bind,
    checked_eq (CheckedInt.fits_64_iff.mpr (by omega)), Machine.ok_bind]
  rfl

theorem patchExtra_trapped
    (hinv : Inv newSize s)
    (h : ¬ (LengthFits newSize s.newPos c.insert ∧
      (Taken (newSize - s.newPos) s.extra c.insert → Fits 64 (s.oldPos + c.seek)))) :
    patchExtra newSize c s = .error .trapped := by
  by_cases hfits : LengthFits newSize s.newPos c.insert
  · have htaken : Taken (newSize - s.newPos) s.extra c.insert := by
      by_contra hnot
      exact h ⟨hfits, fun ht => absurd ht hnot⟩
    have hold : ¬ Fits 64 (s.oldPos + c.seek) := fun hold => h ⟨hfits, fun _ => hold⟩
    have hlen := length_take_taken htaken
    have hroom := htaken.2.1
    rw [patchExtra, readString_eq hinv.newPos.1 hfits htaken, Machine.ok_bind]
    dsimp only
    rw [store_eq hinv (by omega), Machine.ok_bind,
      checked_eq ((fits_stop_iff hinv.newPos.1 c.insert_bounds.1).mpr hfits.1), Machine.ok_bind,
      checked_eq_error hold]
    rfl
  · rw [patchExtra, readString_trapped hinv.newPos.1 c.insert_bounds.1 hfits]
    rfl

theorem patchExtra_thrown
    (hinv : Inv newSize s)
    (hfits : LengthFits newSize s.newPos c.insert)
    (h : ¬ Taken (newSize - s.newPos) s.extra c.insert) :
    patchExtra newSize c s = .error .thrown := by
  rw [patchExtra, readString_thrown hinv.newPos.1 c.insert_bounds.1 hfits h]
  rfl

theorem patchExtra_eq
    (hinv : Inv newSize s)
    (hfits : LengthFits newSize s.newPos c.insert)
    (htaken : Taken (newSize - s.newPos) s.extra c.insert)
    (hold : Fits 64 (s.oldPos + c.seek)) :
    patchExtra newSize c s = .ok { s with
      extra := s.extra.drop c.insert.toNat
      new := s.new ++ s.extra.take c.insert.toNat
      newPos := s.newPos + c.insert
      oldPos := s.oldPos + c.seek } := by
  have hlen := length_take_taken htaken
  have hroom := htaken.2.1
  rw [patchExtra, readString_eq hinv.newPos.1 hfits htaken, Machine.ok_bind]
  dsimp only
  rw [store_eq hinv (by omega), Machine.ok_bind,
    checked_eq ((fits_stop_iff hinv.newPos.1 c.insert_bounds.1).mpr hfits.1), Machine.ok_bind,
    checked_eq hold, Machine.ok_bind]

/-! ## The loop -/

/-- The state of the reference behind the extra string of a triple. -/
def afterExtra (c : Control) (s : PatchState) : PatchState where
  diff := s.diff
  extra := s.extra.drop c.insert.toNat
  oldPos := s.oldPos + c.seek
  newPos := s.newPos + c.insert

/-- The bytes in front of a position do not matter for the reference. -/
theorem bspatch_new
    (cs : List Control) (new : List UInt8) :
    bspatch old newSize cs { s with new := new } = bspatch old newSize cs s := by
  cases cs <;> rfl

theorem controlsFit_new
    (cs : List Control) (new : List UInt8) :
    ControlsFit newSize cs { s with new := new } ↔ ControlsFit newSize cs s := by
  cases cs <;> exact Iff.rfl

theorem length_added
    (oldPos : ℤ) (block : List UInt8) :
    (added old oldPos block).length = block.length := by
  rw [added, List.length_map, List.length_zipIdx]

/-- What a loop gives, if the numbers fit and if they do not. -/
def LoopRight (result : Except BSPatchError (List UInt8)) (fits : Prop) (front : List UInt8)
    (reference : Option (List UInt8)) : Prop :=
  (fits → result = reference.elim (.error .thrown) (fun rest => .ok (front ++ rest))) ∧
    (¬ fits → result = .error .trapped)

/-- The extra string of a triple, and the loop behind it. -/
theorem loopRight_extra
    {cs : List Control} {block : List UInt8} {s₁ : PatchState}
    (ih : ∀ {s : PatchState}, Inv newSize s →
      LoopRight (patchLoop old newSize cs s) (ControlsFit newSize cs s) s.new
        (bspatch old newSize cs s))
    (hinv : Inv newSize s₁)
    (hnew : s₁.new = s.new ++ block) :
    LoopRight ((patchExtra newSize c s₁).bind (patchLoop old newSize cs))
      (LengthFits newSize s₁.newPos c.insert ∧
        (Taken (newSize - s₁.newPos) s₁.extra c.insert →
          Fits 64 (s₁.oldPos + c.seek) ∧ ControlsFit newSize cs (afterExtra c s₁)))
      s.new
      (if Taken (newSize - s₁.newPos) s₁.extra c.insert then
        (bspatch old newSize cs (afterExtra c s₁)).map (fun rest =>
          block ++ s₁.extra.take c.insert.toNat ++ rest)
      else none) := by
  by_cases hfit : LengthFits newSize s₁.newPos c.insert ∧
      (Taken (newSize - s₁.newPos) s₁.extra c.insert → Fits 64 (s₁.oldPos + c.seek))
  · obtain ⟨hlength, hold⟩ := hfit
    by_cases htaken : Taken (newSize - s₁.newPos) s₁.extra c.insert
    · have hroom := htaken.2.1
      have hpos := htaken.1
      have hlen := length_take_taken htaken
      have hinv₂ : Inv newSize
          { afterExtra c s₁ with new := s₁.new ++ s₁.extra.take c.insert.toNat } := by
        refine ⟨hinv.size, hold htaken, ?_, ?_⟩
        · have := hinv.newPos
          constructor
          · show 0 ≤ s₁.newPos + c.insert
            omega
          · show s₁.newPos + c.insert ≤ newSize
            omega
        · show ((s₁.new ++ s₁.extra.take c.insert.toNat).length : ℤ) = s₁.newPos + c.insert
          have := hinv.new
          rw [List.length_append]
          push_cast
          omega
      obtain ⟨hfits, htraps⟩ := ih hinv₂
      rw [controlsFit_new] at hfits htraps
      rw [bspatch_new] at hfits
      rw [patchExtra_eq hinv hlength htaken (hold htaken), if_pos htaken]
      refine ⟨fun h => ?_, fun h => ?_⟩
      · refine (hfits (h.2 htaken).2).trans ?_
        rw [hnew]
        cases bspatch old newSize cs (afterExtra c s₁) with
        | none => rfl
        | some rest => simp
      · exact htraps (fun hcs => h ⟨hlength, fun ht => ⟨hold ht, hcs⟩⟩)
    · rw [patchExtra_thrown hinv hlength htaken, if_neg htaken]
      exact ⟨fun _ => rfl, fun h => absurd ⟨hlength, fun ht => absurd ht htaken⟩ h⟩
  · rw [patchExtra_trapped hinv hfit]
    exact ⟨fun h => absurd ⟨h.1, fun ht => (h.2 ht).1⟩ hfit, fun _ => rfl⟩

/-- The loop from a state on. -/
theorem patchLoop_spec
    (hinv : Inv newSize s)
    (cs : List Control) :
    LoopRight (patchLoop old newSize cs s) (ControlsFit newSize cs s) s.new
      (bspatch old newSize cs s) := by
  induction cs generalizing s with
  | nil =>
      refine ⟨fun _ => ?_, fun h => absurd trivial h⟩
      rw [patchLoop, bspatch]
      split_ifs
      · rfl
      · rw [Option.elim_some, List.append_nil]
  | cons c cs ih =>
      rw [patchLoop, ControlsFit, bspatch]
      by_cases hlt : s.newPos < newSize
      · rw [if_pos hlt, if_pos hlt]
        simp only [hlt, forall_const]
        by_cases hfit : LengthFits newSize s.newPos c.add ∧
            (Taken (newSize - s.newPos) s.diff c.add → s.oldPos + c.add < 2 ^ 63)
        · obtain ⟨hlength, hold⟩ := hfit
          by_cases htaken : Taken (newSize - s.newPos) s.diff c.add
          · have hroom := htaken.2.1
            have hpos := htaken.1
            have hlen := length_take_taken htaken
            have hlow := CheckedInt.fits_64_iff.mp hinv.oldPos
            have hinv₁ : Inv newSize { s with
                diff := s.diff.drop c.add.toNat
                new := s.new ++ added old s.oldPos (s.diff.take c.add.toNat)
                newPos := s.newPos + c.add
                oldPos := s.oldPos + c.add } := by
              have hnewPos := hinv.newPos
              have hnew := hinv.new
              have hold := hold htaken
              refine ⟨hinv.size, CheckedInt.fits_64_iff.mpr ?_, ⟨?_, ?_⟩, ?_⟩
              · show -9223372036854775808 ≤ s.oldPos + c.add ∧
                  s.oldPos + c.add < 9223372036854775808
                omega
              · show 0 ≤ s.newPos + c.add
                omega
              · show s.newPos + c.add ≤ newSize
                omega
              · show ((s.new ++ added old s.oldPos (s.diff.take c.add.toNat)).length : ℤ) =
                  s.newPos + c.add
                rw [List.length_append, length_added]
                push_cast
                omega
            have hextra := @loopRight_extra old newSize c s cs _ _ ih hinv₁ rfl
            rw [patchDiff_eq hinv hlength htaken (hold htaken), if_pos htaken]
            refine ⟨fun h => ?_, fun h => ?_⟩
            · exact hextra.1 (h.2 htaken).2
            · exact hextra.2 (fun he => h ⟨hlength, fun ht => ⟨hold ht, he⟩⟩)
          · rw [patchDiff_thrown hinv hlength htaken, if_neg htaken]
            exact ⟨fun _ => rfl, fun h => absurd ⟨hlength, fun ht => absurd ht htaken⟩ h⟩
        · rw [patchDiff_trapped hinv hfit]
          exact ⟨fun h => absurd ⟨h.1, fun ht => (h.2 ht).1⟩ hfit, fun _ => rfl⟩
      · rw [if_neg hlt, if_neg hlt]
        exact ⟨fun _ => by rw [Option.elim_some, List.append_nil],
          fun h => absurd (fun hl => absurd hl hlt) h⟩

/-- The reference fills the file up to its size. -/
theorem length_bspatch
    {cs : List Control} {rest : List UInt8}
    (hle : s.newPos ≤ newSize)
    (h : bspatch old newSize cs s = some rest) :
    (rest.length : ℤ) = newSize - s.newPos := by
  induction cs generalizing s rest with
  | nil =>
      rw [bspatch] at h
      split_ifs at h
      rw [← Option.some.inj h, List.length_nil, Nat.cast_zero]
      omega
  | cons c cs ih =>
      rw [bspatch] at h
      split_ifs at h with hlt hdiff hextra
      · obtain ⟨tail, htail, rfl⟩ := Option.map_eq_some_iff.mp h
        have hroom := hextra.2.1
        have hnext := ih (show s.newPos + c.add + c.insert ≤ newSize by omega) htail
        have h₁ := length_take_taken hdiff
        have h₂ := length_take_taken hextra
        dsimp only at hnext
        rw [List.length_append, List.length_append, length_added]
        push_cast
        omega
      · rw [← Option.some.inj h, List.length_nil, Nat.cast_zero]
        omega

theorem bspatch_eq_none_iff
    (cs : List Control) (s : PatchState) :
    bspatch old newSize cs s = none ↔ ¬ Complete newSize cs s := by
  induction cs generalizing s with
  | nil =>
      rw [bspatch, Complete]
      split_ifs with hlt
      · exact iff_of_true rfl (by omega)
      · exact iff_of_false not_false (by omega)
  | cons c cs ih =>
      rw [bspatch, Complete]
      split_ifs with hlt hdiff hextra
      · rw [Option.map_eq_none_iff, ih]
        exact not_congr ⟨fun h _ => ⟨hdiff, hextra, h⟩, fun h => (h hlt).2.2⟩
      · exact iff_of_true rfl (fun h => hextra (h hlt).2.1)
      · exact iff_of_true rfl (fun h => hdiff (h hlt).1)
      · exact iff_of_false not_false (fun h => h (fun hl => absurd hl hlt))

/-! ## A patch -/

/-- The lengths of the header fit, and the numbers of the control stream. -/
structure NumbersFit (header ctrl diff extra : List UInt8) : Prop where
  offsets : 32 + bzCrtlLen header + bzDataLen header < 2 ^ 63
  capacity : BRBSPatch.newSize header + 1 < 2 ^ 63
  controls : ControlsFit (BRBSPatch.newSize header) (controls ctrl)
    { diff := diff, extra := extra }

variable {header ctrl diff extra : List UInt8}

theorem patch_not_accepted
    (h : ¬ Accepted header) :
    patch old header ctrl diff extra = .error .thrown := by
  rw [patch]
  split_ifs with hlength hmagic hneg
  · rfl
  · rfl
  · rfl
  · refine absurd ⟨not_not.mp hlength, fun hascii => ?_, ?_, ?_, ?_⟩ h
    · by_contra hne
      exact hmagic ⟨hascii, hne⟩
    all_goals omega

theorem patch_accepted
    (h : Accepted header) :
    patch old header ctrl diff extra = (do
      let dpfStart ← checked .trapped 64 (32 + bzCrtlLen header)
      let _ ← checked .trapped 64 (dpfStart + bzDataLen header)
      let _ ← checked .trapped 64 (BRBSPatch.newSize header + 1)
      patchLoop old (BRBSPatch.newSize header) (controls ctrl)
        { diff := diff, extra := extra }) := by
  have h₁ := h.bzCrtlLen
  have h₂ := h.bzDataLen
  have h₃ := h.newSize
  rw [patch, if_neg (not_not.mpr h.length), if_neg (fun hm => hm.2 (h.magic hm.1)),
    if_neg (by omega)]

theorem patch_trapped
    (h : Accepted header)
    (hfit : ¬ NumbersFit header ctrl diff extra) :
    patch old header ctrl diff extra = .error .trapped := by
  have h₁ := h.bzCrtlLen
  have h₂ := h.bzDataLen
  have h₃ := h.newSize
  rw [patch_accepted h]
  by_cases hfirst : Fits 64 (32 + bzCrtlLen header)
  · rw [checked_eq hfirst, Machine.ok_bind]
    by_cases hsecond : Fits 64 (32 + bzCrtlLen header + bzDataLen header)
    · rw [checked_eq hsecond, Machine.ok_bind]
      by_cases hthird : Fits 64 (BRBSPatch.newSize header + 1)
      · rw [checked_eq hthird, Machine.ok_bind]
        rw [CheckedInt.fits_64_iff] at hsecond hthird
        refine (patchLoop_spec ⟨?_, ?_, ⟨?_, ?_⟩, ?_⟩ (controls ctrl)).2
          (fun hc => hfit ⟨by omega, by omega, hc⟩)
        · omega
        · exact CheckedInt.fits_64_iff.mpr (by norm_num)
        · exact le_refl _
        · exact h₃
        · rfl
      · rw [checked_eq_error hthird]
        rfl
    · rw [checked_eq_error hsecond]
      rfl
  · rw [checked_eq_error hfirst]
    rfl

theorem patch_eq
    (h : Accepted header)
    (hfit : NumbersFit header ctrl diff extra) :
    patch old header ctrl diff extra =
      (bspatch old (BRBSPatch.newSize header) (controls ctrl)
        { diff := diff, extra := extra }).elim (.error .thrown) .ok := by
  have h₁ := h.bzCrtlLen
  have h₂ := h.bzDataLen
  have h₃ := h.newSize
  have hoffsets := hfit.offsets
  have hcapacity := hfit.capacity
  rw [patch_accepted h, checked_eq (CheckedInt.fits_64_iff.mpr (by omega)), Machine.ok_bind,
    checked_eq (CheckedInt.fits_64_iff.mpr (by omega)), Machine.ok_bind,
    checked_eq (CheckedInt.fits_64_iff.mpr (by omega)), Machine.ok_bind]
  refine (patchLoop_spec ⟨?_, ?_, ⟨?_, ?_⟩, ?_⟩ (controls ctrl)).1 hfit.controls
  · omega
  · exact CheckedInt.fits_64_iff.mpr (by norm_num)
  · exact le_refl _
  · exact h₃
  · rfl

/-- **Binary patches.**  A patch gives the file of the reference or throws, and
throws at a wrong magic, if and only if the numbers behind a header that is
accepted fit, and those behind a wrong magic do not make a complete file. -/
theorem right_iff
    (old header ctrl diff extra : List UInt8) :
    Right old header ctrl diff extra ↔
      (Accepted header → NumbersFit header ctrl diff extra ∧
        (header.take 8 ≠ bsdiff40 → ¬ Complete (BRBSPatch.newSize header) (controls ctrl)
          { diff := diff, extra := extra })) := by
  by_cases h : Accepted header
  · by_cases hfit : NumbersFit header ctrl diff extra
    · have heq := @patch_eq old header ctrl diff extra h hfit
      cases href : bspatch old (BRBSPatch.newSize header) (controls ctrl)
          { diff := diff, extra := extra } with
      | none =>
          rw [href] at heq
          rw [bspatch_eq_none_iff] at href
          exact iff_of_true ⟨fun _ => heq, .inl heq⟩ (fun _ => ⟨hfit, fun _ => href⟩)
      | some new =>
          rw [href, Option.elim_some] at heq
          constructor
          · intro hright _
            refine ⟨hfit, fun hmagic => ?_⟩
            have hthrown := hright.magic hmagic
            rw [heq] at hthrown
            cases hthrown
          · intro hall
            refine ⟨fun hmagic => ?_, .inr ⟨new, heq, href, ?_⟩⟩
            · have hnone := (@bspatch_eq_none_iff old _ _ _).mpr ((hall h).2 hmagic)
              rw [href] at hnone
              cases hnone
            · have hlen := length_bspatch (show (0 : ℤ) ≤ _ from h.newSize) href
              rw [hlen]
              exact sub_zero _
    · have htrap := @patch_trapped old header ctrl diff extra h hfit
      refine iff_of_false (fun hright => ?_) (fun hall => hfit (hall h).1)
      rcases hright.result with hr | ⟨new, hr, -⟩
      · rw [htrap] at hr
        cases hr
      · rw [htrap] at hr
        cases hr
  · have hthrown := @patch_not_accepted old header ctrl diff extra h
    exact iff_of_true ⟨fun _ => hthrown, .inl hthrown⟩ (fun ha => absurd ha h)

/-- A header of zeros but for its first byte is taken for a patch of no bytes. -/
theorem not_right :
    ¬ ∀ old header ctrl diff extra : List UInt8, header.length = 32 →
      Right old header ctrl diff extra := by
  intro hall
  have hright := hall [] (0x80 :: List.replicate 31 0) [] [] [] (by decide)
  have heq : patch [] (0x80 :: List.replicate 31 0) [] [] [] = .ok [] := by
    decide +kernel
  have hthrown := hright.magic (by decide)
  rw [heq] at hthrown
  cases hthrown

end BRBSPatch

end BreadwalletCore
