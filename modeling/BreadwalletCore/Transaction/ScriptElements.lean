import BreadwalletCore.Transaction.Script

/-!
# The elements of a script

`BRScriptElements` with and without a buffer, and `BRScriptData`.  A script is
accepted when its headers lead from one element to the next and from the last
one to the end; a push whose length is cut off leads behind the end.
-/

namespace BreadwalletCore

open Segment (slice)

/-! ## The functions -/

/-- The `switch` of `BRScriptData`: how far `elem` moves, and `*dataLen`.
There is no result when bytes behind the buffer are read. -/
def elemHeader : List UInt8 → Option (ℕ × ℕ)
  | [] => none
  | op :: rest =>
      if op = opPushData1 then
        if 1 ≤ rest.length then some (2, LittleEndian.value (rest.take 1)) else none
      else if op = opPushData2 then
        if 2 ≤ rest.length then some (3, LittleEndian.value (rest.take 2)) else none
      else if op = opPushData4 then
        if 4 ≤ rest.length then some (5, LittleEndian.value (rest.take 4)) else none
      else some (1, if op > opPushData4 then 0 else op.toNat)

/-- `BRScriptData`: where the data starts behind `elem`, or NULL, and `*dataLen`. -/
def scriptData (elem : List UInt8) : Option (Option ℕ × ℕ) :=
  (elemHeader elem).map (fun r => (if r.2 > 0 then some r.1 else none, r.2))

/-- The loop of `BRScriptElements` with a buffer of `elemsCount` elements, or NULL:
the elements written, their number `i` and the offset. -/
def scriptElementsFill (elemsCount : Option ℕ) (script : List UInt8) :
    ℕ → ℕ → ℕ → ℕ → List ℕ → List ℕ × ℕ × ℕ
  | 0, off, _, i, elems => (elems, i, off)
  | fuel + 1, off, len, i, elems =>
      if off < script.length then
        let next := pushLength script off len
        scriptElementsFill elemsCount script fuel (next.1 + next.2) next.2 (i + 1)
          (if elemsCount.any (i < ·) then elems ++ [off] else elems)
      else (elems, i, off)

/-- `BRScriptElements`: the elements written, and the number returned. -/
def BRScriptElements (elemsCount : Option ℕ) (script : List UInt8) : List ℕ × ℕ :=
  let r := scriptElementsFill elemsCount script script.length 0 0 0 []
  (r.1, if elemsCount.all (r.2.1 ≤ ·) ∧ r.2.2 = script.length then r.2.1 else 0)

/-! ## Headers that lead to the end -/

/-- The offsets start at `off`, and every header leads to the next one. -/
def Splits (script : List UInt8) : ℕ → List ℕ → Prop
  | off, [] => off = script.length
  | off, o :: offs => o = off ∧ ∃ start n, elemHeader (script.drop off) = some (start, n) ∧
      Splits script (off + start + n) offs

variable {script : List UInt8} {off : ℕ} {offs : List ℕ}

theorem elemHeader_pos
    {elem : List UInt8} {start n : ℕ}
    (h : elemHeader elem = some (start, n)) :
    1 ≤ start ∧ start ≤ elem.length := by
  cases elem with
  | nil =>
      cases h
  | cons op rest =>
      rw [elemHeader] at h
      rw [List.length_cons]
      split_ifs at h
      all_goals
        obtain ⟨rfl, -⟩ := Prod.mk.inj (Option.some.inj h)
        omega

theorem Splits.le
    (h : Splits script off offs) :
    off ≤ script.length := by
  induction offs generalizing off with
  | nil =>
      exact le_of_eq h
  | cons o offs ih =>
      obtain ⟨-, start, n, -, hrest⟩ := h
      have hle := ih hrest
      omega

/-- One round: the header is read, or the offset is behind the end. -/
theorem pushLength_header
    (hoff : off < script.length)
    (len : ℕ) :
    (∃ start n, elemHeader (script.drop off) = some (start, n) ∧
      pushLength script off len = (off + start, n)) ∨
    (elemHeader (script.drop off) = none ∧ script.length < (pushLength script off len).1) := by
  have hget : script.getD off 0 = script[off] := List.getD_eq_getElem _ _ hoff
  have hlen : (script.drop (off + 1)).length = script.length - (off + 1) := List.length_drop
  -- the length has `w` bytes
  have hwidth : ∀ w v : ℕ,
      (∃ start n, (if w ≤ script.length - (off + 1) then some (w + 1, v) else none) =
        some (start, n) ∧
        (off + (w + 1), if off + (w + 1) ≤ script.length then v else len) = (off + start, n)) ∨
      ((if w ≤ script.length - (off + 1) then some (w + 1, v) else none) = none ∧
        script.length < (off + (w + 1), if off + (w + 1) ≤ script.length then v else len).1) := by
    intro w v
    by_cases hw : w ≤ script.length - (off + 1)
    · rw [if_pos hw, if_pos (by omega)]
      exact .inl ⟨_, _, rfl, rfl⟩
    · rw [if_neg hw]
      exact .inr ⟨rfl, by dsimp only; omega⟩
  rw [List.drop_eq_getElem_cons hoff, elemHeader, pushLength, hget, hlen]
  by_cases h1 : script[off] = opPushData1
  · simp only [if_pos h1]
    exact hwidth 1 _
  · by_cases h2 : script[off] = opPushData2
    · simp only [if_neg h1, if_pos h2]
      exact hwidth 2 _
    · by_cases h4 : script[off] = opPushData4
      · simp only [if_neg h1, if_neg h2, if_pos h4]
        exact hwidth 4 _
      · simp only [if_neg h1, if_neg h2, if_neg h4]
        exact .inl ⟨_, _, rfl, rfl⟩

/-- A run that ends at the end of the script. -/
theorem splits_of_loop
    (fuel len : ℕ) (elems : List ℕ)
    (hfuel : script.length ≤ off + fuel)
    (h : (scriptElementsLoop script fuel off len elems).2 = script.length) :
    ∃ offs, (scriptElementsLoop script fuel off len elems).1 = elems ++ offs ∧
      Splits script off offs := by
  induction fuel generalizing off len elems with
  | zero =>
      exact ⟨[], (List.append_nil _).symm, h⟩
  | succ fuel ih =>
      by_cases hoff : off < script.length
      · rw [scriptElementsLoop, if_pos hoff] at h ⊢
        dsimp only at h ⊢
        obtain ⟨start, n, hheader, hpush⟩ | ⟨-, hbehind⟩ := pushLength_header hoff len
        · rw [hpush] at h ⊢
          have hstart := (elemHeader_pos hheader).1
          obtain ⟨offs, helems, hsplits⟩ := ih _ _ (by omega) h
          refine ⟨off :: offs, ?_, rfl, start, n, hheader, hsplits⟩
          rw [helems, List.append_assoc, List.singleton_append]
        · rw [scriptElementsLoop_end (by omega)] at h
          omega
      · rw [scriptElementsLoop_end (by omega)] at h ⊢
        exact ⟨[], (List.append_nil _).symm, h⟩

theorem loop_of_splits
    {fuel len : ℕ} {elems : List ℕ}
    (hfuel : script.length ≤ off + fuel)
    (h : Splits script off offs) :
    scriptElementsLoop script fuel off len elems = (elems ++ offs, script.length) := by
  induction offs generalizing off fuel len elems with
  | nil =>
      cases h
      rw [scriptElementsLoop_end le_rfl, List.append_nil]
  | cons o offs ih =>
      obtain ⟨rfl, start, n, hheader, hrest⟩ := h
      obtain ⟨hstart, hlen⟩ := elemHeader_pos hheader
      rw [List.length_drop] at hlen
      have hoff : o < script.length := by omega
      obtain ⟨fuel, rfl⟩ : ∃ f, fuel = f + 1 := ⟨fuel - 1, by omega⟩
      rw [scriptElementsLoop, if_pos hoff]
      dsimp only
      obtain ⟨start', n', hheader', hpush⟩ | ⟨hnone, -⟩ := pushLength_header hoff len
      · cases Option.some.inj (hheader.symm.trans hheader')
        rw [hpush, ih (by omega) hrest, List.append_assoc, List.singleton_append]
      · rw [hheader] at hnone
        cases hnone

/-! ## The calls with and without a buffer -/

/-- What is written of the next elements. -/
def writtenOffsets (elemsCount : Option ℕ) (i : ℕ) (offs : List ℕ) : List ℕ :=
  match elemsCount with
  | none => []
  | some n => offs.take (n - i)

theorem writtenOffsets_cons
    (elemsCount : Option ℕ) (i o : ℕ) (offs : List ℕ) :
    writtenOffsets elemsCount i (o :: offs) =
      (if elemsCount.any (i < ·) then [o] else []) ++ writtenOffsets elemsCount (i + 1) offs := by
  cases elemsCount with
  | none =>
      rfl
  | some n =>
      by_cases hlt : i < n
      · rw [writtenOffsets, writtenOffsets, show n - i = (n - (i + 1)) + 1 by omega, List.take_succ_cons]
        simp [hlt]
      · rw [writtenOffsets, writtenOffsets, show n - i = 0 by omega, show n - (i + 1) = 0 by omega]
        simp [hlt]

/-- The loop with a buffer sees the elements that the loop without one sees. -/
theorem scriptElementsFill_eq
    (script : List UInt8) (elemsCount : Option ℕ) (fuel off len i : ℕ) (elems elems' : List ℕ) :
    ∃ offs stop, scriptElementsLoop script fuel off len elems' = (elems' ++ offs, stop) ∧
      scriptElementsFill elemsCount script fuel off len i elems =
        (elems ++ writtenOffsets elemsCount i offs, i + offs.length, stop) := by
  induction fuel generalizing off len i elems elems' with
  | zero =>
      refine ⟨[], off, by rw [List.append_nil]; rfl, ?_⟩
      cases elemsCount <;> simp [scriptElementsFill, writtenOffsets]
  | succ fuel ih =>
      by_cases hoff : off < script.length
      · rw [scriptElementsLoop, if_pos hoff, scriptElementsFill, if_pos hoff]
        dsimp only
        obtain ⟨offs, stop, hloop, hfill⟩ := ih
          ((pushLength script off len).1 + (pushLength script off len).2)
          (pushLength script off len).2 (i + 1)
          (if elemsCount.any (i < ·) then elems ++ [off] else elems) (elems' ++ [off])
        refine ⟨off :: offs, stop, ?_, ?_⟩
        · rw [hloop, List.append_assoc, List.singleton_append]
        · rw [hfill, writtenOffsets_cons, List.length_cons]
          refine Prod.ext ?_ (Prod.ext (by dsimp only; omega) rfl)
          dsimp only
          split <;> simp
      · rw [scriptElementsLoop, if_neg hoff, scriptElementsFill, if_neg hoff]
        refine ⟨[], off, by rw [List.append_nil], ?_⟩
        cases elemsCount <;> simp [writtenOffsets]

/-- Both calls on a script that splits. -/
theorem BRScriptElements_of_splits
    (h : Splits script 0 offs)
    (elemsCount : Option ℕ) :
    BRScriptElements elemsCount script =
      (writtenOffsets elemsCount 0 offs, if elemsCount.all (offs.length ≤ ·) then offs.length else 0) := by
  obtain ⟨offs', stop, hloop, hfill⟩ := scriptElementsFill_eq script elemsCount
    script.length 0 0 0 [] []
  rw [loop_of_splits (by omega) h] at hloop
  obtain ⟨hoffs, hstop⟩ := Prod.mk.inj hloop
  rw [List.nil_append, List.nil_append] at hoffs
  subst hoffs hstop
  rw [BRScriptElements, hfill]
  simp

/-- A call that returns a number splits the script. -/
theorem splits_of_BRScriptElements
    (elemsCount : Option ℕ)
    (h : (BRScriptElements elemsCount script).2 ≠ 0) :
    ∃ offs, Splits script 0 offs := by
  obtain ⟨offs, stop, hloop, hfill⟩ := scriptElementsFill_eq script elemsCount
    script.length 0 0 0 [] []
  rw [BRScriptElements, hfill] at h
  dsimp only at h
  have hstop : stop = script.length := by
    by_contra hne
    exact h (if_neg (fun hand => hne hand.2))
  obtain ⟨offs', -, hsplits⟩ := splits_of_loop script.length 0 [] (Nat.zero_add _).ge
    (by rw [hloop, hstop])
  exact ⟨offs', hsplits⟩

/-! ## The elements partition the script -/

/-- The element `[a, b)`: its data lies in it. -/
def IsElement (script : List UInt8) (a b : ℕ) : Prop :=
  ∃ start n, scriptData (script.drop a) = some (if 0 < n then some start else none, n) ∧
    1 ≤ start ∧ a + start + n = b ∧ b ≤ script.length

/-- Where the elements end. -/
def elementEnds (script : List UInt8) (offs : List ℕ) : List ℕ :=
  (offs ++ [script.length]).tail

/-- The bytes of the elements. -/
def elementBytes (script : List UInt8) (offs : List ℕ) : List (List UInt8) :=
  List.zipWith (fun a b => slice script a (b - a)) offs (elementEnds script offs)

/-- The first element ends where the next one starts. -/
theorem Splits.ends
    {o : ℕ}
    (h : Splits script off offs) :
    elementEnds script (o :: offs) = off :: elementEnds script offs := by
  cases offs with
  | nil =>
      cases h
      rfl
  | cons o' offs =>
      cases h.1
      rfl

/-- Every element has its header and its data, up to the next one. -/
theorem Splits.elements
    (h : Splits script off offs) :
    List.Forall₂ (IsElement script) offs (elementEnds script offs) := by
  induction offs generalizing off with
  | nil =>
      exact .nil
  | cons o offs ih =>
      obtain ⟨rfl, start, n, hheader, hrest⟩ := h
      rw [hrest.ends]
      refine .cons ⟨start, n, ?_, (elemHeader_pos hheader).1, rfl, hrest.le⟩ (ih hrest)
      rw [scriptData, hheader]
      rfl

/-- The elements one after the other are the script. -/
theorem Splits.flatten
    (h : Splits script off offs) :
    (elementBytes script offs).flatten = script.drop off := by
  induction offs generalizing off with
  | nil =>
      cases h
      rw [List.drop_length]
      rfl
  | cons o offs ih =>
      obtain ⟨rfl, start, n, hheader, hrest⟩ := h
      rw [elementBytes, hrest.ends, List.zipWith_cons_cons, List.flatten_cons]
      change _ ++ (elementBytes script offs).flatten = _
      rw [ih hrest, slice, show o + start + n - o = start + n by omega, Nat.add_assoc o,
        ← List.drop_drop, List.take_append_drop]

/-! ## The pushes -/

/-- Where the encodings start. -/
def pushOffsets : ℕ → List (List UInt8) → List ℕ
  | _, [] => []
  | off, data :: datas => off :: pushOffsets (off + (scriptPushData data).length) datas

/-- The header of a long encoding. -/
theorem elemHeader_long
    {op : UInt8} {w : ℕ} {data : List UInt8}
    (hop : op = opPushData1 ∧ w = 1 ∨ op = opPushData2 ∧ w = 2 ∨ op = opPushData4 ∧ w = 4)
    (hlen : data.length < 256 ^ w)
    (rest : List UInt8) :
    elemHeader (op :: (LittleEndian.bytes w data.length ++ rest)) = some (w + 1, data.length) := by
  have hroom : w ≤ (LittleEndian.bytes w data.length ++ rest).length := by
    rw [List.length_append, LittleEndian.length_bytes]
    omega
  have hvalue : LittleEndian.value ((LittleEndian.bytes w data.length ++ rest).take w) =
      data.length := by
    rw [List.take_left' (LittleEndian.length_bytes _ _), LittleEndian.value_bytes hlen]
  obtain ⟨rfl, rfl⟩ | ⟨rfl, rfl⟩ | ⟨rfl, rfl⟩ := hop
  · rw [elemHeader, if_pos rfl, if_pos hroom, hvalue]
  · rw [elemHeader, if_neg (by decide), if_pos rfl, if_pos hroom, hvalue]
  · rw [elemHeader, if_neg (by decide), if_neg (by decide), if_pos rfl, if_pos hroom, hvalue]

/-- The header of an encoding. -/
theorem elemHeader_push
    {data : List UInt8}
    (hlen : data.length < 2 ^ 32)
    (rest : List UInt8) :
    ∃ start, elemHeader (scriptPushData data ++ rest) = some (start, data.length) ∧
      (scriptPushData data).length = start + data.length ∧
      (scriptPushData data ++ rest).drop start = data ++ rest := by
  have hlong : ∀ (op : UInt8) (w : ℕ),
      op = opPushData1 ∧ w = 1 ∨ op = opPushData2 ∧ w = 2 ∨ op = opPushData4 ∧ w = 4 →
      data.length < 256 ^ w →
      scriptPushData data = op :: (LittleEndian.bytes w data.length ++ data) →
      ∃ start, elemHeader (scriptPushData data ++ rest) = some (start, data.length) ∧
        (scriptPushData data).length = start + data.length ∧
        (scriptPushData data ++ rest).drop start = data ++ rest := by
    intro op w hop hw hpush
    refine ⟨w + 1, ?_, ?_, ?_⟩
    · rw [hpush, List.cons_append, List.append_assoc, elemHeader_long hop hw]
    · rw [hpush, List.length_cons, List.length_append, LittleEndian.length_bytes]
      omega
    · rw [hpush, List.cons_append, List.drop_succ_cons, List.append_assoc,
        List.drop_left' (LittleEndian.length_bytes _ _)]
  by_cases h1 : data.length < 0x4c
  · obtain ⟨hpd1, hpd2, hpd4, hle, hnat⟩ := shortOp_spec h1
    rw [scriptPushData_short h1]
    refine ⟨1, ?_, by rw [List.length_cons, Nat.add_comm], rfl⟩
    rw [List.cons_append, elemHeader, if_neg hpd1, if_neg hpd2, if_neg hpd4, if_neg hle, hnat]
  · by_cases h2 : data.length < 0xff
    · exact hlong opPushData1 1 (.inl ⟨rfl, rfl⟩) (by omega)
        (by rw [scriptPushData, if_neg h1, if_pos h2]; rfl)
    · by_cases h3 : data.length < 0xffff
      · exact hlong opPushData2 2 (.inr (.inl ⟨rfl, rfl⟩)) (by omega)
          (by rw [scriptPushData, if_neg h1, if_neg h2, if_pos h3]; rfl)
      · exact hlong opPushData4 4 (.inr (.inr ⟨rfl, rfl⟩)) (by omega)
          (by rw [scriptPushData, if_neg h1, if_neg h2, if_neg h3]; rfl)

/-- Encodings split at their boundaries, and give back what was pushed. -/
theorem splits_pushes
    {datas : List (List UInt8)}
    (hdatas : ∀ data ∈ datas, data ≠ [] ∧ data.length < 2 ^ 32)
    (hoff : off ≤ script.length)
    (hdrop : script.drop off = (datas.map scriptPushData).flatten) :
    Splits script off (pushOffsets off datas) ∧
      List.Forall₂ (fun o data => ∃ start,
        scriptData (script.drop o) = some (some start, data.length) ∧
          slice script (o + start) data.length = data) (pushOffsets off datas) datas := by
  induction datas generalizing off with
  | nil =>
      have hlen := congrArg List.length hdrop
      rw [List.length_drop] at hlen
      change _ = 0 at hlen
      exact ⟨show off = script.length by omega, .nil⟩
  | cons data datas ih =>
      obtain ⟨hne, hlt⟩ := hdatas data List.mem_cons_self
      rw [List.map_cons, List.flatten_cons] at hdrop
      obtain ⟨start, hheader, hlength, hdata⟩ :=
        elemHeader_push hlt (datas.map scriptPushData).flatten
      rw [← hdrop] at hheader hdata
      have hend : script.drop (off + (scriptPushData data).length) =
          (datas.map scriptPushData).flatten := by
        rw [← List.drop_drop, hdrop, List.drop_left]
      have hle : off + (scriptPushData data).length ≤ script.length := by
        have hlen := congrArg List.length hdrop
        rw [List.length_drop, List.length_append] at hlen
        omega
      obtain ⟨hsplits, helems⟩ := ih (fun d hd => hdatas d (List.mem_cons_of_mem _ hd)) hle hend
      have hpos : 0 < data.length := List.length_pos_iff.mpr hne
      refine ⟨⟨rfl, start, data.length, hheader, ?_⟩, .cons ⟨start, ?_, ?_⟩ helems⟩
      · rw [Nat.add_assoc, ← hlength]
        exact hsplits
      · rw [scriptData, hheader, Option.map_some, if_pos hpos]
      · rw [slice, ← List.drop_drop, hdata, List.take_left]

theorem length_pushOffsets
    (off : ℕ) (datas : List (List UInt8)) :
    (pushOffsets off datas).length = datas.length := by
  induction datas generalizing off with
  | nil =>
      rfl
  | cons data datas ih =>
      rw [pushOffsets, List.length_cons, ih, List.length_cons]

/-- Pushes are split at the boundaries of their encodings; and in a script that
is accepted both calls agree, the elements partition it, and all data is inside. -/
theorem scriptElements_spec :
    (∀ datas : List (List UInt8), (∀ data ∈ datas, data ≠ [] ∧ data.length < 2 ^ 32) →
      let script := (datas.map scriptPushData).flatten
      (BRScriptElements none script).2 = datas.length ∧
      BRScriptElements (some datas.length) script = (pushOffsets 0 datas, datas.length) ∧
      List.Forall₂ (fun off data => ∃ start,
        scriptData (script.drop off) = some (some start, data.length) ∧
          slice script (off + start) data.length = data) (pushOffsets 0 datas) datas) ∧
    (∀ (script : List UInt8) (n : ℕ), (∃ call, (BRScriptElements call script).2 = n) → n ≠ 0 →
      (BRScriptElements none script).2 = n ∧
      ∃ offs, offs.length = n ∧
        (∀ elemsCount, BRScriptElements (some elemsCount) script =
          (offs.take elemsCount, if n ≤ elemsCount then n else 0)) ∧
        (elementBytes script offs).flatten = script ∧
        List.Forall₂ (IsElement script) offs (elementEnds script offs)) := by
  constructor
  · intro datas hdatas script
    obtain ⟨hsplits, helems⟩ := splits_pushes hdatas (Nat.zero_le script.length) rfl
    rw [BRScriptElements_of_splits hsplits, BRScriptElements_of_splits hsplits,
      length_pushOffsets]
    refine ⟨rfl, ?_, helems⟩
    rw [writtenOffsets, Nat.sub_zero, List.take_of_length_le (length_pushOffsets _ _).le]
    simp
  · rintro script n ⟨call, hcall⟩ hn
    obtain ⟨offs, hsplits⟩ := splits_of_BRScriptElements call (by rw [hcall]; exact hn)
    have hlen : offs.length = n := by
      rw [BRScriptElements_of_splits hsplits] at hcall
      dsimp only at hcall
      split at hcall
      · exact hcall
      · exact absurd hcall.symm hn
    refine ⟨?_, offs, hlen, ?_, hsplits.flatten, hsplits.elements⟩
    · rw [BRScriptElements_of_splits hsplits]
      exact hlen
    · intro elemsCount
      rw [BRScriptElements_of_splits hsplits, hlen, writtenOffsets, Nat.sub_zero]
      simp

/-- Two pushes are two elements, and a script of two elements has both calls agree. -/
theorem scriptElements_spec_two :
    (BRScriptElements none [1, 7, 2, 8, 9]).2 = 2 ∧
      ∃ offs : List ℕ, offs.length = 2 ∧
        (elementBytes [1, 7, 2, 8, 9] offs).flatten = [1, 7, 2, 8, 9] := by
  have hpushes := (scriptElements_spec.1 [[7], [8, 9]] (by decide)).1
  obtain ⟨-, offs, hlen, -, hflatten, -⟩ :=
    scriptElements_spec.2 [1, 7, 2, 8, 9] 2 ⟨none, hpushes⟩ (by decide)
  exact ⟨hpushes, offs, hlen, hflatten⟩

end BreadwalletCore
