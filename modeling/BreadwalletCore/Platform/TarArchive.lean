import BreadwalletCore.Platform.Tar
import Mathlib.Data.List.TakeWhile

/-!
# Well-formed archives

What `createFilesAndDirectoriesAtPath` makes of an archive that is a sequence of
entries, each a header with its blocks of data, and null blocks.
-/

namespace BreadwalletCore

namespace BRTar

/-! ## Archives -/

/-- A field with an octal number: blanks, digits, and blanks or NULs. -/
def OctalField (field : List UInt8) (n : ℕ) : Prop :=
  ∃ blanks digits rest, field = blanks ++ (digits ++ rest) ∧ (∀ c ∈ blanks, c = 0x20) ∧
    digits ≠ [] ∧ (∀ c ∈ digits, isOctal c = true) ∧ (∀ c ∈ rest, c = 0x20 ∨ c = 0) ∧
    octalValue digits = n

/-- A header with the data behind it. -/
structure TarEntry where
  header : List UInt8
  data : List UInt8
  size : ℕ
  length_header : header.length = tarBlockSize
  typed : readTypeAtLocation header 0 ≠ .nullBlock ∧ readTypeAtLocation header 0 ≠ .invalid
  name_ascii : isAscii (readAt header tarNamePosition tarNameSize) = true
  size_field : OctalField (readAt header tarSizePosition tarSizeSize) size
  length_data : data.length = (size + 511) / 512 * tarBlockSize

namespace TarEntry

variable (e : TarEntry)

def type : BRTarType := readTypeAtLocation e.header 0

def name : List UInt8 := readAt e.header tarNamePosition tarNameSize

/-- The number of blocks of data. -/
def dataBlocks : ℕ := (e.size + 511) / 512

/-- What the entry stands for. -/
def creation : Option Event :=
  if e.type = .file then some (.createFile e.name (e.data.take e.size))
  else if e.type = .directory then some (.createDirectory e.name)
  else none

end TarEntry

/-- A part of an archive. -/
inductive Part
  | entry (e : TarEntry)
  | null

namespace Part

def bytes : Part → List UInt8
  | .entry e => e.header ++ e.data
  | .null => List.replicate tarBlockSize 0

def creation : Part → Option Event
  | .entry e => e.creation
  | .null => none

/-- The number of blocks. -/
def blocks : Part → ℕ
  | .entry e => 1 + e.dataBlocks
  | .null => 1

end Part

/-- The parts of an archive: entries, and null blocks behind them. -/
def archiveParts (entries : List TarEntry) (nulls : ℕ) : List Part :=
  entries.map .entry ++ List.replicate nulls .null

/-- Where the headers and the null blocks are. -/
def locations : ℕ → List Part → List ℕ
  | _, [] => []
  | loc, p :: ps => loc :: locations (loc + p.blocks * tarBlockSize) ps

def isCreation : Event → Bool
  | .remove _ => false
  | _ => true

/-- A run that follows the parts from a location on.  If the file system refuses
a call, what has been done so far follows them. -/
def FollowsFrom (loc : ℕ) (parts : List Part) (r : Run) : Prop :=
  (r.stop = .finished ∧ r.visited = locations loc parts ∧
      r.events.filter isCreation = parts.filterMap Part.creation) ∨
    (r.stop = .refused ∧ r.visited <+: locations loc parts ∧
      r.events.filter isCreation <+: parts.filterMap Part.creation)

/-- The loop follows the archive with every file system. -/
def Follows (parts : List Part) : Prop :=
  ∀ fs, FollowsFrom 0 parts (extract fs (parts.flatMap Part.bytes))

/-- The size of an entry agrees with the step to the next header. -/
structure TarEntry.Fits (e : TarEntry) (last : Prop) : Prop where
  /-- a directory has no data -/
  directory : e.type = .directory → e.size = 0
  /-- a header block has one block of data, or is empty and the end of the archive -/
  headerBlock : e.type = .headerBlock → 1 ≤ e.size ∧ e.size ≤ 512 ∨ e.size = 0 ∧ last
  /-- the data of an entry that is left out fill their blocks -/
  unsupported : e.type = .unsupported → 512 ∣ e.size

/-- The sizes of the entries of an archive fit. -/
def PartsFit : List Part → Prop
  | [] => True
  | .entry e :: ps => e.Fits (ps = []) ∧ PartsFit ps
  | .null :: ps => PartsFit ps

/-! ## Reading a header -/

theorem readAt_append
    {header : List UInt8} {n location : ℕ}
    (h : location + n ≤ header.length)
    (pre rest : List UInt8) :
    readAt (pre ++ (header ++ rest)) (pre.length + location) n = readAt header location n := by
  rw [readAt, readAt, List.drop_length_add_append, List.drop_append_of_le_length (by omega),
    List.take_append_of_le_length (by rw [List.length_drop]; omega)]

theorem foldl_octal_append
    {digits rest : List UInt8}
    (hdigits : ∀ c ∈ digits, isOctal c = true)
    (hrest : ∀ c ∈ rest, c = 0x20 ∨ c = 0) :
    octalValue (digits ++ rest) = octalValue digits := by
  have hself : digits.takeWhile isOctal = digits := List.takeWhile_eq_self_iff.mpr hdigits
  have hnone : rest.takeWhile isOctal = [] := by
    cases rest with
    | nil => rfl
    | cons c cs =>
        refine List.takeWhile_cons_of_neg ?_
        rcases hrest c List.mem_cons_self with rfl | rfl <;> decide
  rw [octalValue, octalValue, List.takeWhile_append_of_pos hdigits, hnone, hself, List.append_nil]

/-- An octal number is read back. -/
theorem OctalField.strtoll
    {field : List UInt8} {n : ℕ}
    (h : OctalField field n) :
    isAscii field = true ∧ strtoll field = n := by
  obtain ⟨blanks, digits, rest, rfl, hblanks, hne, hdigits, hrest, rfl⟩ := h
  obtain ⟨d, ds, rfl⟩ := List.exists_cons_of_ne_nil hne
  have hd : isOctal d = true := hdigits d List.mem_cons_self
  have hplain : ∀ c : UInt8, isOctal c = true → c < 0x80 ∧ isSpace c = false ∧ c ≠ 0x2d ∧
      c ≠ 0x2b := by
    intro c hc
    have hrange : 48 ≤ c.toNat ∧ c.toNat ≤ 55 := by
      rw [isOctal, Bool.and_eq_true, decide_eq_true_iff, decide_eq_true_iff,
        UInt8.le_iff_toNat_le, UInt8.le_iff_toNat_le] at hc
      exact hc
    refine ⟨UInt8.lt_iff_toNat_lt.mpr ?_, ?_, ?_, ?_⟩
    · exact Nat.lt_of_le_of_lt hrange.2 (by decide)
    · rw [isSpace, Bool.or_eq_false_iff, Bool.and_eq_false_iff]
      refine ⟨decide_eq_false ?_, .inr (decide_eq_false ?_)⟩
      · rintro rfl
        exact absurd hrange.1 (by decide)
      · rw [UInt8.le_iff_toNat_le]
        exact Nat.not_le.mpr (Nat.lt_of_lt_of_le (by decide) hrange.1)
    · rintro rfl
      exact absurd hrange.1 (by decide)
    · rintro rfl
      exact absurd hrange.1 (by decide)
  refine ⟨?_, ?_⟩
  · rw [isAscii, List.all_eq_true]
    intro c hc
    rcases List.mem_append.mp hc with hc | hc
    · rw [hblanks c hc]
      decide
    · rcases List.mem_append.mp hc with hc | hc
      · exact decide_eq_true (hplain c (hdigits c hc)).1
      · rcases hrest c hc with rfl | rfl <;> decide
  · have hdrop : (blanks ++ (d :: ds ++ rest)).dropWhile isSpace = d :: ds ++ rest := by
      rw [List.dropWhile_append_of_pos (fun c hc => by rw [hblanks c hc]; decide),
        List.cons_append, List.dropWhile_cons_of_neg (by rw [(hplain d hd).2.1]; decide)]
    rw [BRTar.strtoll, hdrop, List.cons_append, List.head?_cons,
      if_neg (fun h => (hplain d hd).2.2.1 (Option.some.inj h)),
      if_neg (fun h => (hplain d hd).2.2.2 (Option.some.inj h)), ← List.cons_append,
      foldl_octal_append hdigits hrest]

namespace Part

/-- What is read of a part. -/
def read : Part → Header
  | .entry e =>
      if e.type = .file then .file e.name e.size
      else if e.type = .directory then .directory e.name
      else if e.type = .headerBlock then .headerBlock
      else .unsupported e.size
  | .null => .nullBlock

theorem length_bytes
    (p : Part) :
    p.bytes.length = p.blocks * tarBlockSize := by
  cases p with
  | entry e =>
      rw [bytes, blocks, List.length_append, e.length_header, e.length_data, TarEntry.dataBlocks,
        Nat.add_mul, Nat.one_mul]
  | null =>
      rw [bytes, blocks, List.length_replicate, Nat.one_mul]

/-- The header of a part is read as it stands. -/
theorem readHeader_eq
    (p : Part) (pre rest : List UInt8) :
    readHeader (pre ++ (p.bytes ++ rest)) pre.length = p.read := by
  cases p with
  | entry e =>
      have hfield := fun location n (h : location + n ≤ 512) =>
        @readAt_append e.header n location (by rw [e.length_header]; exact h) pre
          (e.data ++ rest)
      obtain ⟨hascii, hvalue⟩ := e.size_field.strtoll
      have htype : readTypeAtLocation (pre ++ (e.header ++ (e.data ++ rest))) pre.length =
          e.type := by
        rw [readTypeAtLocation, hfield tarTypePosition 1 (by decide), TarEntry.type,
          readTypeAtLocation, Nat.zero_add]
      have hname : readNameAtLocation (pre ++ (e.header ++ (e.data ++ rest))) pre.length =
          some e.name := by
        rw [readNameAtLocation, hfield tarNamePosition tarNameSize (by decide)]
        exact if_pos e.name_ascii
      have hsize : readSizeAtLocation (pre ++ (e.header ++ (e.data ++ rest))) pre.length =
          some e.size := by
        rw [readSizeAtLocation, hfield tarSizePosition tarSizeSize (by decide), hvalue,
          if_pos hascii, if_pos (by omega)]
        rfl
      rw [bytes, List.append_assoc, readHeader, htype, hname, hsize, read]
      obtain ⟨hnull, hinvalid⟩ := e.typed
      change e.type ≠ .nullBlock at hnull
      change e.type ≠ .invalid at hinvalid
      cases htype : e.type with
      | file => rfl
      | directory => rfl
      | nullBlock => exact absurd htype hnull
      | headerBlock => rfl
      | unsupported => rfl
      | invalid => exact absurd htype hinvalid
  | null =>
      have htype : readTypeAtLocation (pre ++ (List.replicate tarBlockSize 0 ++ rest)) pre.length =
          .nullBlock := by
        rw [readTypeAtLocation, readAt_append (by rw [List.length_replicate]; decide)]
        decide +kernel
      rw [bytes, readHeader, htype]
      rfl

theorem read_good
    (p : Part) :
    p.read ≠ .malformed ∧ p.read ≠ .trapping := by
  cases p with
  | entry e =>
      rw [read]
      split_ifs <;> exact ⟨Header.noConfusion, Header.noConfusion⟩
  | null =>
      exact ⟨Header.noConfusion, Header.noConfusion⟩

end Part

/-! ## The contents of a file -/

theorem copyLoop_eq
    {maxSize fuel size : ℕ}
    (hmax : 0 < maxSize)
    (hfuel : size < fuel)
    (rest : List UInt8) :
    copyLoop maxSize fuel size rest = rest.take size := by
  induction fuel generalizing size rest with
  | zero =>
      omega
  | succ fuel ih =>
      rw [copyLoop]
      split_ifs with h
      · rw [ih (by omega), ← List.take_add]
        congr 1
        omega
      · rfl

theorem Part.creation_eq
    (p : Part) (pre rest : List UInt8) :
    p.read.creation (pre ++ (p.bytes ++ rest)) pre.length = p.creation := by
  cases p with
  | entry e =>
      rw [Part.read, Part.creation, TarEntry.creation]
      split_ifs
      · have hlen : e.size ≤ e.data.length := by
          rw [e.length_data, tarBlockSize]
          omega
        have hcontents : fileContents (pre ++ ((Part.entry e).bytes ++ rest)) pre.length e.size =
            e.data.take e.size := by
          rw [fileContents, copyLoop_eq (by decide) (Nat.lt_succ_self _), Part.bytes,
            List.drop_length_add_append, List.append_assoc,
            List.drop_left' e.length_header, List.take_append_of_le_length hlen]
        rw [Header.creation, hcontents]
        split_ifs with hzero
        · rw [hzero, List.take_zero]
        · rfl
      · rfl
      · rfl
      · rfl
  | null =>
      rfl

/-! ## The step to the next header -/

/-- The step is the length of the part, or goes beyond the end of the last part. -/
def Part.Steps (p : Part) (rest : List Part) : Prop :=
  p.read.blockCount = p.blocks ∨ rest = [] ∧ p.blocks ≤ p.read.blockCount

theorem Part.steps_entry_iff
    (e : TarEntry) (rest : List Part) :
    (Part.entry e).Steps rest ↔ e.Fits (rest = []) := by
  obtain ⟨hnull, hinvalid⟩ := e.typed
  change e.type ≠ .nullBlock at hnull
  change e.type ≠ .invalid at hinvalid
  rw [Part.Steps, Part.read, Part.blocks, TarEntry.dataBlocks]
  cases htype : e.type with
  | file =>
      refine iff_of_true (.inl ?_) ⟨by simp [htype], by simp [htype], by simp [htype]⟩
      rw [if_pos rfl, Header.blockCount, tarBlockSize]
      split_ifs <;> omega
  | directory =>
      have hcount : (Header.directory e.name).blockCount = 1 := rfl
      rw [if_neg (by decide), if_pos rfl, hcount]
      constructor
      · intro h
        exact ⟨fun _ => by omega, by simp [htype], by simp [htype]⟩
      · intro h
        have := h.directory htype
        omega
  | headerBlock =>
      rw [if_neg (by decide), if_neg (by decide), if_pos rfl, Header.blockCount]
      constructor
      · intro h
        refine ⟨by simp [htype], fun _ => ?_, by simp [htype]⟩
        rcases h with h | ⟨hrest, h⟩
        · exact .inl (by omega)
        · by_cases hzero : e.size = 0
          · exact .inr ⟨hzero, hrest⟩
          · exact .inl (by omega)
      · intro h
        rcases h.headerBlock htype with ⟨h₁, h₂⟩ | ⟨hzero, hrest⟩
        · exact .inl (by omega)
        · exact .inr ⟨hrest, by omega⟩
  | unsupported =>
      rw [if_neg (by decide), if_neg (by decide), if_neg (by decide), Header.blockCount,
        tarBlockSize]
      constructor
      · intro h
        exact ⟨by simp [htype], by simp [htype], fun _ => by omega⟩
      · intro h
        have := h.unsupported htype
        exact .inl (by omega)
  | nullBlock => exact absurd htype hnull
  | invalid => exact absurd htype hinvalid

theorem partsFit_cons_iff
    (p : Part) (ps : List Part) :
    PartsFit (p :: ps) ↔ p.Steps ps ∧ PartsFit ps := by
  cases p with
  | entry e =>
      rw [PartsFit, Part.steps_entry_iff]
  | null =>
      rw [PartsFit]
      exact ⟨fun h => ⟨.inl rfl, h⟩, fun h => h.2⟩

/-! ## A run over the parts -/

/-- The calls for a header that create something: the creation, unless the file
system has refused to remove what was there. -/
theorem filter_perform
    {fs : TarFileSystem} {history : List Event} {creation : Option Event}
    (h : ∀ c ∈ creation, isCreation c = true) :
    ((perform fs history creation).2 = true →
        (perform fs history creation).1.filter isCreation = creation.toList) ∧
      (perform fs history creation).1.filter isCreation <+: creation.toList := by
  cases creation with
  | none =>
      exact ⟨fun _ => rfl, List.prefix_rfl⟩
  | some create =>
      have hcreate := h create rfl
      have hremove : isCreation (.remove create.name) = false := rfl
      rw [perform, Option.elim_some]
      split_ifs
      · simp [hcreate, hremove]
      · simp [hremove]
      · simp [hcreate]

theorem Part.isCreation_creation
    (p : Part) :
    ∀ c ∈ p.creation, isCreation c = true := by
  intro c hc
  cases p with
  | entry e =>
      rw [Part.creation, TarEntry.creation] at hc
      split_ifs at hc
      · rw [← Option.some.inj hc]
        rfl
      · rw [← Option.some.inj hc]
        rfl
      · exact absurd hc (Option.not_mem_none _)
  | null =>
      exact absurd hc (Option.not_mem_none _)

theorem filterMap_creation_cons
    (p : Part) (ps : List Part) :
    (p :: ps).filterMap Part.creation = p.creation.toList ++ ps.filterMap Part.creation := by
  rw [List.filterMap_cons]
  cases p.creation <;> rfl

/-- The run from a part on: the calls for the part, and the run behind its step. -/
theorem extractFrom_part
    (fs : TarFileSystem) (history : List Event) (p : Part) (pre rest : List UInt8) :
    extractFrom fs (pre ++ (p.bytes ++ rest)) history pre.length =
      if (perform fs history p.creation).2 then
        { extractFrom fs (pre ++ (p.bytes ++ rest)) (history ++ (perform fs history p.creation).1)
            (pre.length + p.read.blockCount * tarBlockSize) with
          visited := pre.length :: (extractFrom fs (pre ++ (p.bytes ++ rest))
            (history ++ (perform fs history p.creation).1)
            (pre.length + p.read.blockCount * tarBlockSize)).visited
          events := (perform fs history p.creation).1 ++
            (extractFrom fs (pre ++ (p.bytes ++ rest))
              (history ++ (perform fs history p.creation).1)
              (pre.length + p.read.blockCount * tarBlockSize)).events }
      else ⟨.refused, [pre.length], (perform fs history p.creation).1⟩ := by
  have hlt : pre.length < (pre ++ (p.bytes ++ rest)).length := by
    have hpos : 0 < p.blocks := by
      cases p <;> rw [Part.blocks] <;> omega
    rw [List.length_append, List.length_append, p.length_bytes, tarBlockSize]
    omega
  have hread := p.readHeader_eq pre rest
  rw [extractFrom_good hlt (by rw [hread]; exact p.read_good), hread, p.creation_eq]

theorem extractFrom_end
    {fs : TarFileSystem} {tar : List UInt8} {history : List Event} {loc : ℕ}
    (h : tar.length ≤ loc) :
    extractFrom fs tar history loc = ⟨.finished, [], []⟩ := by
  rw [extractFrom, if_neg (by omega)]

theorem locations_cons
    (loc : ℕ) (p : Part) (ps : List Part) :
    locations loc (p :: ps) = loc :: locations (loc + p.blocks * tarBlockSize) ps := by
  rfl

/-- Behind a part that is followed the rest is followed. -/
theorem followsFrom_of_fits
    (fs : TarFileSystem) {parts : List Part}
    (hfit : PartsFit parts)
    (history : List Event) (pre : List UInt8) :
    FollowsFrom pre.length parts
      (extractFrom fs (pre ++ parts.flatMap Part.bytes) history pre.length) := by
  induction parts generalizing history pre with
  | nil =>
      rw [extractFrom_end (by simp)]
      exact .inl ⟨rfl, rfl, rfl⟩
  | cons p ps ih =>
      obtain ⟨hsteps, hfit⟩ := (partsFit_cons_iff p ps).mp hfit
      obtain ⟨hdone, hprefix⟩ := @filter_perform fs history p.creation p.isCreation_creation
      rw [List.flatMap_cons, extractFrom_part]
      split_ifs with hok
      · -- the run behind the part follows the rest
        have hrest : FollowsFrom (pre.length + p.blocks * tarBlockSize) ps
            (extractFrom fs (pre ++ (p.bytes ++ ps.flatMap Part.bytes))
              (history ++ (perform fs history p.creation).1)
              (pre.length + p.read.blockCount * tarBlockSize)) := by
          rcases hsteps with hstep | ⟨rfl, hle⟩
          · have hnext := ih hfit (history ++ (perform fs history p.creation).1) (pre ++ p.bytes)
            rw [List.append_assoc, List.length_append, p.length_bytes] at hnext
            rw [hstep]
            exact hnext
          · rw [extractFrom_end]
            · exact .inl ⟨rfl, rfl, rfl⟩
            · have := Nat.mul_le_mul_right tarBlockSize hle
              simp only [List.flatMap_nil, List.append_nil, List.length_append, p.length_bytes]
              omega
        rcases hrest with ⟨hstop, hvisited, hevents⟩ | ⟨hstop, hvisited, hevents⟩
        · refine .inl ⟨hstop, ?_, ?_⟩
          · rw [locations_cons, ← hvisited]
          · rw [filterMap_creation_cons, List.filter_append, hdone hok, hevents]
        · refine .inr ⟨hstop, ?_, ?_⟩
          · rw [locations_cons]
            exact List.prefix_cons_inj _ |>.mpr hvisited
          · rw [filterMap_creation_cons, List.filter_append, hdone hok]
            exact (List.prefix_append_right_inj _).mpr hevents
      · refine .inr ⟨rfl, ?_, ?_⟩
        · rw [locations_cons]
          exact List.prefix_cons_inj _ |>.mpr List.nil_prefix
        · rw [filterMap_creation_cons]
          exact hprefix.trans (List.prefix_append _ _)

/-! ## The sizes of an archive that is followed -/

theorem stop_willing
    (tar : List UInt8) (history : List Event) (loc : ℕ) :
    (extractFrom willing tar history loc).stop ≠ .refused := by
  induction history, loc using extractFrom.induct willing tar with
  | case1 history loc hlt h hbad =>
      rw [extractFrom, if_pos hlt]
      dsimp only
      rw [if_pos hbad]
      exact Stop.noConfusion
  | case2 history loc hlt h hnot hbad =>
      rw [extractFrom, if_pos hlt]
      dsimp only
      rw [if_neg hnot, if_pos hbad]
      exact Stop.noConfusion
  | case3 history loc hlt h hnot hnot' done hdone ih =>
      rw [extractFrom_good hlt ⟨hnot, hnot'⟩, if_pos hdone]
      exact ih
  | case4 history loc hlt h hnot hnot' done hdone =>
      exact absurd (congrArg Prod.snd (perform_willing _ _)) hdone
  | case5 history loc hge =>
      rw [extractFrom, if_neg hge]
      exact Stop.noConfusion

/-- A header that is reached is visited. -/
theorem visited_eq_cons
    {fs : TarFileSystem} {tar : List UInt8} {loc : ℕ}
    (hlt : loc < tar.length) (history : List Event) :
    ∃ rest, (extractFrom fs tar history loc).visited = loc :: rest := by
  rw [extractFrom, if_pos hlt]
  dsimp only
  split_ifs
  · exact ⟨[], rfl⟩
  · exact ⟨[], rfl⟩
  · exact ⟨_, rfl⟩
  · exact ⟨[], rfl⟩

theorem fits_of_followsFrom
    {parts : List Part} {history : List Event} {pre : List UInt8}
    (h : FollowsFrom pre.length parts
      (extractFrom willing (pre ++ parts.flatMap Part.bytes) history pre.length)) :
    PartsFit parts := by
  induction parts generalizing history pre with
  | nil =>
      trivial
  | cons p ps ih =>
      rw [partsFit_cons_iff]
      have hrefused := stop_willing (pre ++ (p :: ps).flatMap Part.bytes) history pre.length
      obtain ⟨hstop, hvisited, hevents⟩ := h.resolve_right (fun hr => hrefused hr.1)
      rw [List.flatMap_cons, extractFrom_part, perform_willing, if_pos rfl] at hstop hvisited hevents
      rw [locations_cons, List.cons.injEq] at hvisited
      obtain ⟨-, hvisited⟩ := hvisited
      by_cases hlt : pre.length + p.read.blockCount * tarBlockSize <
          (pre ++ (p.bytes ++ ps.flatMap Part.bytes)).length
      · -- the next header that is visited is the next part
        obtain ⟨rest, hnext⟩ := @visited_eq_cons willing _ _ hlt (history ++ p.creation.toList)
        cases ps with
        | nil =>
            rw [hnext] at hvisited
            exact absurd hvisited (List.cons_ne_nil _ _)
        | cons q qs =>
            have hstep : p.read.blockCount = p.blocks := by
              rw [hnext, locations_cons, List.cons.injEq, tarBlockSize] at hvisited
              omega
            have hself := (@filter_perform willing history p.creation p.isCreation_creation).1
              (by rw [perform_willing])
            rw [perform_willing] at hself
            rw [filterMap_creation_cons, List.filter_append, hself] at hevents
            refine ⟨.inl hstep, @ih (history ++ p.creation.toList) (pre ++ p.bytes) (.inl ?_)⟩
            rw [hstep] at hstop hvisited hevents
            rw [List.append_assoc, List.length_append, p.length_bytes]
            exact ⟨hstop, hvisited, List.append_cancel_left hevents⟩
      · rw [extractFrom_end (by omega)] at hvisited
        cases ps with
        | nil =>
            refine ⟨.inr ⟨rfl, ?_⟩, trivial⟩
            rw [List.flatMap_nil, List.append_nil, List.length_append, p.length_bytes,
              tarBlockSize] at hlt
            omega
        | cons q qs =>
            exact absurd hvisited.symm (List.cons_ne_nil _ _)

theorem partsFit_of_follows
    {parts : List Part}
    (h : Follows parts) :
    PartsFit parts :=
  @fits_of_followsFrom parts [] [] (h willing)

/-- **Extraction follows the archive.**  The loop reads exactly the headers and
the null blocks and makes exactly the files and directories of the archive, if and
only if the sizes of its entries fit. -/
theorem follows_iff
    (entries : List TarEntry) (nulls : ℕ) :
    Follows (archiveParts entries nulls) ↔ PartsFit (archiveParts entries nulls) := by
  constructor
  · exact partsFit_of_follows
  · intro h fs
    exact followsFrom_of_fits fs h [] []

/-- A global header with a block of data, of which 52 bytes are used. -/
def globalEntry : TarEntry where
  header := List.replicate 124 0 ++ List.replicate 9 0x30 ++ [0x36, 0x34, 0] ++
    List.replicate 20 0 ++ [103] ++ List.replicate 355 0
  data := List.replicate 512 0x31
  size := 52
  length_header := by decide +kernel
  typed := by decide +kernel
  name_ascii := by decide +kernel
  size_field := ⟨[], List.replicate 9 0x30 ++ [0x36, 0x34], [0], by decide +kernel, by simp,
    by decide, by decide +kernel, by simp, by decide +kernel⟩
  length_data := by decide +kernel

/-- The data of a global header are read as a header. -/
theorem not_follows :
    ¬ ∀ (entries : List TarEntry) (nulls : ℕ), Follows (archiveParts entries nulls) := by
  intro hall
  have hfit := partsFit_of_follows (hall [globalEntry] 2)
  have htype : globalEntry.type = .unsupported := by decide +kernel
  have hdvd : 512 ∣ 52 := hfit.1.unsupported htype
  exact absurd hdvd (by decide)

end BRTar

end BreadwalletCore
