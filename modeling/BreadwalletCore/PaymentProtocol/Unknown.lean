import BreadwalletCore.PaymentProtocol.Writers

/-!
# Unknown fields

`_ProtoBufUnknown` copies a field that a parser does not know behind the others it
has kept.  The copy has room for ten bytes and the data.  A field with a greater
key than all of them is put in front of the last one, not behind it.
-/

namespace BreadwalletCore

open ProtoBuf ByteWriter
open Segment (At)

namespace ProtoBuf

/-- The bytes that `_ProtoBufUnknown` has room for. -/
def room (f : WireField) : ℕ :=
  match f.value with
  | .data l => 10 + l.length
  | _ => 10

/-- A field is written as it is read. -/
def writeField (f : WireField) (w : ByteWriter UInt8) : ByteWriter UInt8 :=
  match f.value with
  | .varint v => setVarInt (setVarInt w f.key) v
  | .fixed64 v => setFixed (setVarInt w f.key) v 8
  | .data l => setLenDelim (setVarInt w f.key) (some l) l.length
  | .fixed32 v => setFixed (setVarInt w f.key) v 4
  | .bare _ => setVarInt w f.key

/-- The copy of a field. -/
def copied (junk : ℕ → UInt8) (f : WireField) : List UInt8 :=
  let w := writeField f { buf := newBuf junk (room f), off := 0 }
  w.buf.take w.off

theorem appends_writeField
    (f : WireField) :
    Appends (writeField f) f.encode := by
  obtain ⟨number, value⟩ := f
  have hkey : Appends (fun w => setVarInt w (WireField.key ⟨number, value⟩))
      (Varint.encode (WireField.key ⟨number, value⟩)) := appends_copyEach _
  cases value with
  | varint v =>
      exact hkey.comp (appends_copyEach (Varint.encode v))
  | fixed64 v =>
      exact hkey.comp (appends_copy (LittleEndian.bytes 8 v))
  | data l =>
      have hdata : Appends (fun w => (setVarInt w l.length).copy (l.take l.length))
          (Varint.encode l.length ++ l) := by
        rw [List.take_length]
        exact (appends_copyEach (Varint.encode l.length)).comp (appends_copy l)
      exact hkey.comp hdata
  | fixed32 v =>
      exact hkey.comp (appends_copy (LittleEndian.bytes 4 v))
  | bare type =>
      have hbare := hkey.comp (appends_id (α := UInt8))
      exact hbare

theorem length_copied
    (junk : ℕ → UInt8) (f : WireField) :
    (copied junk f).length = min f.encode.length (room f) := by
  have hf := appends_writeField f
  rw [copied, List.length_take, hf.off, hf.length, length_newBuf, Nat.zero_add]

theorem copied_eq
    (junk : ℕ → UInt8) {f : WireField}
    (hroom : f.encode.length ≤ room f) :
    copied junk f = f.encode := by
  have hf := appends_writeField f
  have hbuf := hf.fits { buf := newBuf junk (room f), off := 0 } (by
    rw [length_newBuf, Nat.zero_add]
    exact hroom)
  rw [copied, hbuf, hf.off, List.take_zero, List.nil_append, Nat.zero_add]
  exact List.take_left' rfl

/-- `_ProtoBufUnknown` as the body of a parser's loop. -/
def keepField (junk : ℕ → UInt8) : FieldStep (Option (List UInt8)) :=
  fun array key i data dataLen => (unknown junk array key i data dataLen).map some

/-- What `_ProtoBufUnknown` makes of the fields it has when it is given a field as a
parser reads it. -/
theorem keepField_eq
    (junk : ℕ → UInt8) {f : WireField}
    (hfits : f.Fits)
    (array : Option (List UInt8)) (len : ℕ) :
    stepWire (keepField junk) len array f =
      (unknownLoop f.key (array.getD []).length (array.getD []) 0 0).map (fun place =>
        some (place.1.take place.2 ++ copied junk f ++ place.1.drop place.2)) := by
  have hkey := key_mod_eight hfits
  obtain ⟨number, value⟩ := f
  have hvalue := hfits.2
  dsimp only at hkey hvalue
  have hcopied : ∀ i data dataLen,
      unknownField junk (WireField.key ⟨number, value⟩) i data dataLen =
          copied junk ⟨number, value⟩ →
        (unknown junk array (WireField.key ⟨number, value⟩) i data dataLen).map some =
          (unknownLoop (WireField.key ⟨number, value⟩) (array.getD []).length (array.getD [])
            0 0).map (fun place =>
              some (place.1.take place.2 ++ copied junk ⟨number, value⟩ ++
                place.1.drop place.2)) := by
    intro i data dataLen h
    rw [unknown, h]
    cases unknownLoop (WireField.key ⟨number, value⟩) (array.getD []).length (array.getD []) 0 0
    · rfl
    · rfl
  cases value with
  | varint v =>
      exact hcopied v none len (by rw [unknownField, hkey]; rfl)
  | fixed64 v =>
      exact hcopied v none len (by rw [unknownField, hkey]; rfl)
  | data l =>
      exact hcopied 0 (some l) l.length (by rw [unknownField, hkey]; rfl)
  | fixed32 v =>
      exact hcopied v none len (by rw [unknownField, hkey]; rfl)
  | bare type =>
      refine hcopied 0 none len ?_
      rw [unknownField, hkey]
      rcases hvalue with rfl | rfl | rfl | rfl <;> rfl

/-! ### Several fields -/

/-- One turn of the loop. -/
theorem unknownLoop_succ
    {key fuel off o : ℕ} {array : List UInt8}
    (hoff : off < array.length) :
    unknownLoop key (fuel + 1) array off o =
      ((if (field (some array) array.length off).key = key then
          rmRange array off (wrap ((field (some array) array.length off).off + 2 ^ 64 - off))
        else .ok array) >>= fun rest =>
          if key ≤ (field (some array) array.length off).key then .ok (rest, off)
          else unknownLoop key fuel rest (field (some array) array.length off).off off) := by
  rw [unknownLoop, if_pos hoff]
  dsimp only
  split
  · rfl
  · rfl

/-- A greater key finds its place in front of the last field. -/
theorem unknownLoop_of_at
    {buf : List UInt8} {key off o fuel : ℕ} {fs : List WireField} {last : WireField}
    (hbuf : buf.length < 2 ^ 64)
    (hfits : ∀ f ∈ fs ++ [last], f.Fits)
    (hless : ∀ f ∈ fs ++ [last], f.key < key)
    (hat : At buf off (WireField.encodeAll (fs ++ [last])))
    (hend : off + (WireField.encodeAll (fs ++ [last])).length = buf.length)
    (hfuel : fs.length < fuel) :
    unknownLoop key fuel buf off o = .ok (buf, off + (WireField.encodeAll fs).length) := by
  induction fs generalizing off o fuel with
  | nil =>
      obtain ⟨fuel, rfl⟩ : ∃ k, fuel = k + 1 := ⟨fuel - 1, by omega⟩
      rw [List.nil_append] at hat hend hfits hless
      have hlast := hless last (List.mem_singleton_self last)
      have hpos := last.length_encode_pos
      have hone : WireField.encodeAll [last] = last.encode := List.append_nil _
      rw [hone] at hat hend
      obtain ⟨hoff, hkey, -⟩ := field_of_at (fun (_ : Unit) _ _ _ _ => .ok ()) () hbuf
        (hfits last (List.mem_singleton_self last)) hat
      rw [unknownLoop_succ (by omega), hkey, hoff, if_neg (by omega), Machine.ok_bind,
        if_neg (by omega), hend]
      cases fuel with
      | zero =>
          rw [unknownLoop, if_neg (by omega)]
          rfl
      | succ fuel =>
          rw [unknownLoop, if_neg (by omega)]
          rfl
  | cons f fs ih =>
      obtain ⟨fuel, rfl⟩ : ∃ k, fuel = k + 1 := ⟨fuel - 1, by omega⟩
      rw [List.cons_append, List.forall_mem_cons] at hfits hless
      rw [List.cons_append, WireField.encodeAll_cons] at hat hend
      rw [List.length_append] at hend
      have hpos := f.length_encode_pos
      obtain ⟨hatField, hatRest⟩ := Segment.at_append.mp hat
      obtain ⟨hoff, hkey, -⟩ := field_of_at (fun (_ : Unit) _ _ _ _ => .ok ()) () hbuf hfits.1
        hatField
      have hrest : unknownLoop key fuel buf (off + f.encode.length) off =
          .ok (buf, off + f.encode.length + (WireField.encodeAll fs).length) :=
        ih hfits.2 hless.2 hatRest (by omega) (by rw [List.length_cons] at hfuel; omega)
      rw [unknownLoop_succ (by omega), hkey, hoff, if_neg (by omega), Machine.ok_bind,
        if_neg (by omega), WireField.encodeAll_cons, List.length_append, ← Nat.add_assoc]
      exact hrest

/-- The array of the unknown fields never grows by more than the copy. -/
theorem unknownLoop_length
    {key fuel off o : ℕ} {array : List UInt8} {place : List UInt8 × ℕ}
    (hok : unknownLoop key fuel array off o = .ok place) :
    place.1.length ≤ array.length := by
  induction fuel generalizing off o array with
  | zero =>
      rw [unknownLoop] at hok
      split at hok
      · cases hok
      · cases hok
        exact Nat.le_refl _
  | succ fuel ih =>
      by_cases hoff : off < array.length
      · rw [unknownLoop_succ hoff] at hok
        obtain ⟨rest, hrest, hok⟩ := Machine.bind_eq_ok.mp hok
        have hle : rest.length ≤ array.length := by
          split at hrest
          · rw [rmRange] at hrest
            split at hrest
            · cases hrest
              rw [List.length_append, List.length_take, List.length_drop]
              omega
            · cases hrest
          · cases hrest
            exact Nat.le_refl _
        split at hok
        · cases hok
          exact hle
        · exact (ih hok).trans hle
      · rw [unknownLoop, if_neg hoff] at hok
        cases hok
        exact Nat.le_refl _

/-- The unknown fields that a parser has in the end. -/
def keepFields (junk : ℕ → UInt8) (len : ℕ) (fs : List WireField) :
    Except ProtoBufFault (Option (List UInt8)) :=
  fs.foldlM (stepWire (keepField junk) len) none

/-- Fields in ascending order, each once. -/
def Ascending (fs : List WireField) : Prop :=
  fs.Pairwise (fun f g => f.key < g.key)

section Keep

variable (junk : ℕ → UInt8) (len : ℕ)

theorem keepField_none
    {f : WireField}
    (hfits : f.Fits) :
    stepWire (keepField junk) len none f = .ok (some (copied junk f)) := by
  have hplace : unknownLoop f.key ((none : Option (List UInt8)).getD []).length
      ((none : Option (List UInt8)).getD []) 0 0 = .ok ([], 0) := rfl
  rw [keepField_eq junk hfits, hplace]
  change Except.ok (some _) = Except.ok (some _)
  simp

/-- One more field is put in front of the last one. -/
theorem keepField_some
    {fs : List WireField} {f last : WireField}
    (hfits : ∀ g ∈ fs ++ [last], g.Fits)
    (hfitsField : f.Fits)
    (hless : ∀ g ∈ fs ++ [last], g.key < f.key)
    (hroom : f.encode.length ≤ room f)
    (hlen : (WireField.encodeAll (fs ++ [last])).length < 2 ^ 64) :
    stepWire (keepField junk) len (some (WireField.encodeAll (fs ++ [last]))) f =
      .ok (some (WireField.encodeAll (fs ++ [f] ++ [last]))) := by
  have hat : At (WireField.encodeAll (fs ++ [last])) 0 (WireField.encodeAll (fs ++ [last])) :=
    Segment.at_zero_iff.mpr ⟨[], (List.append_nil _).symm⟩
  have hcount : fs.length < (WireField.encodeAll (fs ++ [last])).length := by
    have hle := WireField.length_le_encodeAll (fs ++ [last])
    rw [List.length_append, List.length_singleton] at hle
    omega
  have hplace := unknownLoop_of_at (o := 0) hlen hfits hless hat (Nat.zero_add _) hcount
  rw [keepField_eq junk hfitsField, Option.getD_some, hplace, copied_eq junk hroom]
  change Except.ok (some _) = Except.ok (some _)
  simp only [WireField.encodeAll_append, Nat.zero_add, List.take_left' rfl, List.drop_left' rfl,
    List.append_assoc]
  rw [show WireField.encodeAll [f] = f.encode from List.append_nil _]

theorem keepFields_from
    (fs : List WireField) {gs : List WireField} (last : WireField)
    (hfits : ∀ f ∈ fs ++ [last] ++ gs, f.Fits)
    (hless : ∀ f ∈ fs ++ [last], ∀ g ∈ gs, f.key < g.key)
    (hasc : Ascending gs)
    (hroom : ∀ f ∈ gs, f.encode.length ≤ room f)
    (hlen : (WireField.encodeAll (fs ++ [last] ++ gs)).length < 2 ^ 63) :
    gs.foldlM (stepWire (keepField junk) len) (some (WireField.encodeAll (fs ++ [last]))) =
      .ok (some (WireField.encodeAll (fs ++ gs ++ [last]))) := by
  induction gs generalizing fs with
  | nil =>
      rw [List.append_nil]
      rfl
  | cons g gs ih =>
      rw [Ascending, List.pairwise_cons] at hasc
      rw [List.forall_mem_cons] at hroom
      rw [List.forall_mem_append] at hfits
      have hlen' := hlen
      rw [WireField.encodeAll_append, List.length_append] at hlen'
      have hfirst := keepField_some junk len hfits.1
        (hfits.2 g List.mem_cons_self) (fun f hf => hless f hf g List.mem_cons_self) hroom.1
        (by omega)
      have hrest := ih (fs ++ [g])
        (by
          intro f hf
          simp only [List.mem_append, List.mem_cons, List.not_mem_nil, or_false] at hf
          rcases hf with ((hf | rfl) | rfl) | hf
          · exact hfits.1 f (List.mem_append_left _ hf)
          · exact hfits.2 f List.mem_cons_self
          · exact hfits.1 f (List.mem_append_right _ (List.mem_singleton_self f))
          · exact hfits.2 f (List.mem_cons_of_mem _ hf))
        (by
          intro f hf g' hg'
          simp only [List.mem_append, List.mem_singleton] at hf
          rcases hf with (hf | rfl) | rfl
          · exact hless f (List.mem_append_left _ hf) g' (List.mem_cons_of_mem _ hg')
          · exact hasc.1 g' hg'
          · exact hless f (List.mem_append_right _ (List.mem_singleton_self f)) g'
              (List.mem_cons_of_mem _ hg'))
        hasc.2 hroom.2
        (by
          have hnil : (WireField.encodeAll []).length = 0 := rfl
          simp only [WireField.encodeAll_append, WireField.encodeAll_cons,
            List.length_append] at hlen ⊢
          omega)
      rw [List.foldlM_cons, hfirst, Machine.ok_bind, hrest]
      simp

/-- The first field ends up behind all the others. -/
theorem keepFields_ok
    {fs : List WireField} {first : WireField}
    (hfits : ∀ f ∈ first :: fs, f.Fits)
    (hasc : Ascending (first :: fs))
    (hroom : ∀ f ∈ first :: fs, f.encode.length ≤ room f)
    (hlen : (WireField.encodeAll (first :: fs)).length < 2 ^ 63) :
    keepFields junk len (first :: fs) = .ok (some (WireField.encodeAll (fs ++ [first]))) := by
  rw [Ascending, List.pairwise_cons] at hasc
  rw [List.forall_mem_cons] at hroom
  rw [keepFields, List.foldlM_cons, keepField_none junk len (hfits first List.mem_cons_self),
    copied_eq junk hroom.1, Machine.ok_bind]
  have hone : WireField.encodeAll ([] ++ [first]) = first.encode := List.append_nil _
  have h := keepFields_from junk len [] first hfits
    (fun f hf g hg => by
      rw [List.nil_append, List.mem_singleton] at hf
      rw [hf]
      exact hasc.1 g hg)
    hasc.2 hroom.2 hlen
  rwa [hone] at h

variable {junk len} in
/-- No more is kept than there was, and less if a field has no room. -/
theorem length_keepFields
    {fs : List WireField} {array array' : Option (List UInt8)}
    (hfits : ∀ f ∈ fs, f.Fits)
    (hok : fs.foldlM (stepWire (keepField junk) len) array = .ok array') :
    (array'.getD []).length ≤ (array.getD []).length + (WireField.encodeAll fs).length ∧
      ((array'.getD []).length = (array.getD []).length + (WireField.encodeAll fs).length →
        ∀ f ∈ fs, f.encode.length ≤ room f) := by
  induction fs generalizing array with
  | nil =>
      cases hok
      exact ⟨Nat.le_refl _, fun _ => List.forall_mem_nil _⟩
  | cons f fs ih =>
      rw [List.forall_mem_cons] at hfits
      rw [List.foldlM_cons, Machine.bind_eq_ok] at hok
      obtain ⟨mid, hmid, hok⟩ := hok
      obtain ⟨hle, hall⟩ := ih hfits.2 hok
      rw [keepField_eq junk hfits.1] at hmid
      have hstep : (mid.getD []).length ≤
          (array.getD []).length + min f.encode.length (room f) := by
        cases hloop : unknownLoop f.key (array.getD []).length (array.getD []) 0 0 with
        | error e =>
            rw [hloop] at hmid
            cases hmid
        | ok place =>
            rw [hloop] at hmid
            cases hmid
            have hplace := unknownLoop_length hloop
            rw [Option.getD_some, List.length_append, List.length_append, length_copied,
              List.length_take, List.length_drop]
            omega
      rw [WireField.encodeAll_cons, List.length_append]
      refine ⟨by omega, fun heq => ?_⟩
      exact List.forall_mem_cons.mpr ⟨by omega, hall (by omega)⟩

/-- The unknown fields are kept as they are if and only if there is at most one of
them, and it has room. -/
theorem keepFields_iff
    {fs : List WireField}
    (hfits : ∀ f ∈ fs, f.Fits)
    (hasc : Ascending fs)
    (hlen : (WireField.encodeAll fs).length < 2 ^ 63) :
    (∃ array, keepFields junk len fs = .ok array ∧ array.getD [] = WireField.encodeAll fs) ↔
      fs.length ≤ 1 ∧ ∀ f ∈ fs, f.encode.length ≤ room f := by
  constructor
  · rintro ⟨array, hok, harray⟩
    have hroom := (length_keepFields hfits hok).2 (by
      rw [harray, Option.getD_none, List.length_nil, Nat.zero_add])
    refine ⟨?_, hroom⟩
    rcases fs with _ | ⟨first, _ | ⟨second, fs⟩⟩
    · exact Nat.zero_le _
    · exact Nat.le_refl _
    · exfalso
      rw [keepFields_ok junk len hfits hasc hroom hlen] at hok
      cases hok
      rw [Option.getD_some, List.cons_append, WireField.encodeAll_cons,
        WireField.encodeAll_cons first] at harray
      have hkey := (WireField.key_append_inj (hfits second (by simp)) (hfits first (by simp))
        harray).1
      have hlt := (List.pairwise_cons.mp hasc).1 second List.mem_cons_self
      omega
  · rintro ⟨hone, hroom⟩
    rcases fs with _ | ⟨first, _ | ⟨second, fs⟩⟩
    · exact ⟨none, rfl, rfl⟩
    · exact ⟨_, keepFields_ok junk len hfits hasc hroom hlen, rfl⟩
    · rw [List.length_cons, List.length_cons] at hone
      omega

end Keep

end ProtoBuf

end BreadwalletCore
