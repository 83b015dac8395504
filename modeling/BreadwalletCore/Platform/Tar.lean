import Mathlib.Data.List.Infix
import Mathlib.Data.List.TakeWhile
import Mathlib.Tactic

/-!
# Extraction of archives

`BRTar.createFilesAndDirectoriesAtPath`, with the functions that read the fields
of a header.  All fields of a header are read before the file system is touched.

* A file is the list of its bytes; what lies behind its end is not read.
* `TarFileSystem` says what the file system answers, for everything that has been
  done so far.
* A name is a path up to its first NUL.
-/

namespace BreadwalletCore

/-! ## Headers -/

inductive BRTarType
  | file
  | directory
  | nullBlock
  | headerBlock
  | unsupported
  | invalid
deriving DecidableEq

/-- `init(fromData:)`. -/
def BRTarType.ofData (data : List UInt8) : BRTarType :=
  data.head?.elim .invalid (fun byte =>
    if byte = 48 then .file
    else if byte = 53 then .directory
    else if byte = 0 then .nullBlock
    else if byte = 120 then .headerBlock
    else if byte ∈ [49, 50, 51, 52, 53, 54, 55, 103] then .unsupported
    else .invalid)

namespace BRTar

def tarBlockSize : ℕ := 512

def tarTypePosition : ℕ := 156

def tarNamePosition : ℕ := 0

def tarNameSize : ℕ := 100

def tarSizePosition : ℕ := 124

def tarSizeSize : ℕ := 12

def tarMaxBlockLoadInMemory : ℕ := 100

/-- `seek` and `readData`. -/
def readAt (tar : List UInt8) (location n : ℕ) : List UInt8 :=
  (tar.drop location).take n

/-- `String.Encoding.ascii`. -/
def isAscii (bytes : List UInt8) : Bool :=
  bytes.all (fun b => b < 0x80)

def isSpace (c : UInt8) : Bool :=
  c = 0x20 || (0x09 ≤ c && c ≤ 0x0d)

def isOctal (c : UInt8) : Bool :=
  0x30 ≤ c && c ≤ 0x37

/-- The digits of an octal number, up to the first other character. -/
def octalValue (s : List UInt8) : ℕ :=
  (s.takeWhile isOctal).foldl (fun n c => 8 * n + (c.toNat - 0x30)) 0

/-- `strtoll` with the base 8, on at most 12 characters. -/
def strtoll (s : List UInt8) : ℤ :=
  let s := s.dropWhile isSpace
  if s.head? = some 0x2d then -(octalValue s.tail : ℤ)
  else if s.head? = some 0x2b then octalValue s.tail
  else octalValue s

/-- `readTypeAtLocation`. -/
def readTypeAtLocation (tar : List UInt8) (location : ℕ) : BRTarType :=
  .ofData (readAt tar (location + tarTypePosition) 1)

/-- `readNameAtLocation`, which throws if the name is not ASCII. -/
def readNameAtLocation (tar : List UInt8) (location : ℕ) : Option (List UInt8) :=
  let data := readAt tar (location + tarNamePosition) tarNameSize
  if isAscii data then some data else none

/-- `readSizeAtLocation`, which traps if the size is not ASCII or negative. -/
def readSizeAtLocation (tar : List UInt8) (location : ℕ) : Option ℕ :=
  let data := readAt tar (location + tarSizePosition) tarSizeSize
  if isAscii data then
    if 0 ≤ strtoll data then some (strtoll data).toNat else none
  else none

/-- What is read of a header. -/
inductive Header
  | file (name : List UInt8) (size : ℕ)
  | directory (name : List UInt8)
  | nullBlock
  | headerBlock
  | unsupported (size : ℕ)
  /-- an error is thrown -/
  | malformed
  | trapping
deriving DecidableEq

/-- The first part of an iteration. -/
def readHeader (tar : List UInt8) (loc : ℕ) : Header :=
  match readTypeAtLocation tar loc with
  | .file =>
      (readNameAtLocation tar loc).elim .malformed (fun name =>
        (readSizeAtLocation tar loc).elim .trapping (fun size => .file name size))
  | .directory => (readNameAtLocation tar loc).elim .malformed .directory
  | .nullBlock => .nullBlock
  | .headerBlock => .headerBlock
  | .unsupported => (readSizeAtLocation tar loc).elim .trapping .unsupported
  | .invalid => .malformed

/-- `blockCount`. -/
def Header.blockCount : Header → ℕ
  | .file _ size => if size = 0 then 1 else 1 + ((size - 1) / tarBlockSize + 1)
  | .headerBlock => 1 + 1
  | .unsupported size => 1 + size / tarBlockSize
  | _ => 1

theorem Header.blockCount_pos
    (h : Header) :
    0 < h.blockCount := by
  cases h with
  | file name size =>
      rw [Header.blockCount]
      split
      · exact Nat.one_pos
      · exact Nat.add_pos_left Nat.one_pos _
  | unsupported size =>
      exact Nat.add_pos_left Nat.one_pos _
  | _ =>
      exact Nat.succ_pos _

/-! ## The loop -/

/-- What is done with the file system, whether it succeeds or not. -/
inductive Event
  | remove (name : List UInt8)
  | createFile (name contents : List UInt8)
  | createDirectory (name : List UInt8)
deriving DecidableEq

def Event.name : Event → List UInt8
  | .remove name => name
  | .createFile name _ => name
  | .createDirectory name => name

/-- What the file system answers to the next call, behind some others. -/
structure TarFileSystem where
  fileExists : List Event → List UInt8 → Bool
  succeeds : List Event → Event → Bool

/-- The copy of a file in pieces: what has been read is written, up to `size`. -/
def copyLoop (maxSize : ℕ) : ℕ → ℕ → List UInt8 → List UInt8
  | 0, _, _ => []
  | fuel + 1, size, rest =>
      if size > maxSize then
        rest.take maxSize ++ copyLoop maxSize fuel (size - maxSize) (rest.drop maxSize)
      else rest.take size

/-- The contents that are written for a file. -/
def fileContents (tar : List UInt8) (loc size : ℕ) : List UInt8 :=
  copyLoop (tarMaxBlockLoadInMemory * tarBlockSize) (size + 1) size
    (tar.drop (loc + tarBlockSize))

/-- What is removed and created for a header. -/
def Header.creation (tar : List UInt8) (loc : ℕ) : Header → Option Event
  | .file name size =>
      some (.createFile name (if size = 0 then [] else fileContents tar loc size))
  | .directory name => some (.createDirectory name)
  | _ => none

/-- The second part of an iteration: the calls, and whether none of them has
failed. -/
def perform (fs : TarFileSystem) (history : List Event) (creation : Option Event) :
    List Event × Bool :=
  creation.elim ([], true) (fun create =>
    if fs.fileExists history create.name then
      if fs.succeeds history (.remove create.name) then
        ([.remove create.name, create],
          fs.succeeds (history ++ [.remove create.name]) create)
      else ([.remove create.name], false)
    else ([create], fs.succeeds history create))

/-- How a run ends.  It is refused when the file system fails. -/
inductive Stop
  | finished
  | threw
  | refused
  | trapped
deriving DecidableEq

/-- The end of a run, the locations of the headers, and the calls. -/
structure Run where
  stop : Stop
  visited : List ℕ
  events : List Event
deriving DecidableEq

/-- The loop of `createFilesAndDirectoriesAtPath`. -/
def extractFrom (fs : TarFileSystem) (tar : List UInt8) (history : List Event) (loc : ℕ) :
    Run :=
  if loc < tar.length then
    let h := readHeader tar loc
    if h = .malformed then ⟨.threw, [loc], []⟩
    else if h = .trapping then ⟨.trapped, [loc], []⟩
    else
      let done := perform fs history (h.creation tar loc)
      if done.2 then
        let r := extractFrom fs tar (history ++ done.1) (loc + h.blockCount * tarBlockSize)
        { r with visited := loc :: r.visited, events := done.1 ++ r.events }
      else ⟨.refused, [loc], done.1⟩
  else ⟨.finished, [], []⟩
termination_by tar.length - loc
decreasing_by
  have hpos := (readHeader tar loc).blockCount_pos
  rw [tarBlockSize]
  omega

/-- `createFilesAndDirectoriesAtPath`. -/
def extract (fs : TarFileSystem) (tar : List UInt8) : Run :=
  extractFrom fs tar [] 0

/-! ## Paths -/

/-- The components of a path, which ends at its first NUL. -/
def components (path : List UInt8) : List (List UInt8) :=
  (path.takeWhile (· ≠ 0)).splitOn 0x2f

/-- One component behind a path that has none of `.` and `..`. -/
def descend (dir : List (List UInt8)) (c : List UInt8) : List (List UInt8) :=
  if c = [] ∨ c = [0x2e] then dir
  else if c = [0x2e, 0x2e] then dir.dropLast
  else dir ++ [c]

/-- A path without `.` and `..`. -/
def normalise (cs : List (List UInt8)) : List (List UInt8) :=
  cs.foldl descend []

/-- `appendingPathComponent`, normalised. -/
def resolve (path name : List UInt8) : List (List UInt8) :=
  normalise (components path ++ components name)

/-- A path strictly below the destination. -/
def Below (path name : List UInt8) : Prop :=
  normalise (components path) <+: resolve path name ∧
    resolve path name ≠ normalise (components path)

instance (path name : List UInt8) : Decidable (Below path name) :=
  inferInstanceAs (Decidable (_ ∧ _))

/-- Only paths below the destination are touched, nothing traps, and a header with
a field that cannot be read ends the run with an error. -/
structure Contained (path tar : List UInt8) (r : Run) : Prop where
  below : ∀ e ∈ r.events, Below path e.name
  safe : r.stop ≠ .trapped
  malformed : ∀ loc ∈ r.visited,
    readHeader tar loc = .malformed ∨ readHeader tar loc = .trapping → r.stop = .threw

/-! ## The headers of an archive -/

/-- The locations where the loop reads a header if the file system does not
fail. -/
inductive Reaches (tar : List UInt8) : ℕ → Prop
  | start (h : 0 < tar.length) : Reaches tar 0
  | next {loc : ℕ} (hloc : Reaches tar loc)
      (hgood : readHeader tar loc ≠ .malformed ∧ readHeader tar loc ≠ .trapping)
      (hlt : loc + (readHeader tar loc).blockCount * tarBlockSize < tar.length) :
      Reaches tar (loc + (readHeader tar loc).blockCount * tarBlockSize)

/-- The fields of a header: a name that is used is below the destination, and a
size that is read is ASCII and not negative. -/
structure HeaderSafe (path tar : List UInt8) (loc : ℕ) : Prop where
  name : readTypeAtLocation tar loc = .file ∨ readTypeAtLocation tar loc = .directory →
    ∀ name ∈ readNameAtLocation tar loc, Below path name
  size : readTypeAtLocation tar loc = .unsupported ∨
      readTypeAtLocation tar loc = .file ∧ (readNameAtLocation tar loc).isSome = true →
    (readSizeAtLocation tar loc).isSome = true

/-! ## One iteration -/

/-- What is safe about a header once it has been read. -/
def Header.Safe (path : List UInt8) : Header → Prop
  | .file name _ => Below path name
  | .directory name => Below path name
  | .trapping => False
  | _ => True

theorem headerSafe_iff
    {path tar : List UInt8} {loc : ℕ} :
    HeaderSafe path tar loc ↔ (readHeader tar loc).Safe path := by
  rw [readHeader]
  cases htype : readTypeAtLocation tar loc with
  | file =>
      cases hname : readNameAtLocation tar loc with
      | none =>
          exact iff_of_true ⟨by simp [hname], by simp [htype, hname]⟩ trivial
      | some name =>
          cases hsize : readSizeAtLocation tar loc with
          | none =>
              refine iff_of_false (fun h => ?_) id
              have := h.size (.inr ⟨htype, by rw [hname]; rfl⟩)
              rw [hsize] at this
              exact Bool.false_ne_true this
          | some size =>
              constructor
              · intro h
                exact h.name (.inl htype) name hname
              · intro h
                refine ⟨fun _ n hn => ?_, fun _ => by rw [hsize]; rfl⟩
                rw [hname] at hn
                exact Option.some.inj hn ▸ h
  | directory =>
      cases hname : readNameAtLocation tar loc with
      | none =>
          exact iff_of_true ⟨by simp [hname], by simp [htype]⟩ trivial
      | some name =>
          constructor
          · intro h
            exact h.name (.inr htype) name hname
          · intro h
            refine ⟨fun _ n hn => ?_, by simp [htype]⟩
            rw [hname] at hn
            exact Option.some.inj hn ▸ h
  | nullBlock =>
      exact iff_of_true ⟨by simp [htype], by simp [htype]⟩ trivial
  | headerBlock =>
      exact iff_of_true ⟨by simp [htype], by simp [htype]⟩ trivial
  | unsupported =>
      cases hsize : readSizeAtLocation tar loc with
      | none =>
          refine iff_of_false (fun h => ?_) id
          have := h.size (.inl htype)
          rw [hsize] at this
          exact Bool.false_ne_true this
      | some size =>
          exact iff_of_true ⟨by simp [htype], by simp [hsize]⟩ trivial
  | invalid =>
      exact iff_of_true ⟨by simp [htype], by simp [htype]⟩ trivial

theorem Header.Safe.creation
    {path tar : List UInt8} {loc : ℕ} {h : Header}
    (hsafe : h.Safe path) :
    ∀ create ∈ h.creation tar loc, Below path create.name := by
  intro create hcreate
  cases h with
  | file name size =>
      obtain rfl := Option.some.inj hcreate
      exact hsafe
  | directory name =>
      obtain rfl := Option.some.inj hcreate
      exact hsafe
  | _ =>
      exact absurd hcreate (Option.not_mem_none _)

/-- Only the path of the header is touched. -/
theorem name_of_mem_perform
    {fs : TarFileSystem} {history : List Event} {creation : Option Event} {e : Event}
    (h : e ∈ (perform fs history creation).1) :
    ∃ create ∈ creation, e.name = create.name := by
  cases creation with
  | none =>
      exact absurd h List.not_mem_nil
  | some create =>
      refine ⟨create, rfl, ?_⟩
      rw [perform, Option.elim_some] at h
      split_ifs at h
      · simp only [List.mem_cons, List.not_mem_nil, or_false] at h
        rcases h with rfl | rfl <;> rfl
      · rw [List.mem_singleton.mp h]
        rfl
      · rw [List.mem_singleton.mp h]

/-! ## A run -/

theorem Reaches.lt
    {tar : List UInt8} {loc : ℕ}
    (h : Reaches tar loc) :
    loc < tar.length := by
  cases h with
  | start h => exact h
  | next _ _ hlt => exact hlt

/-- The equation of the loop at a header that is not the last one. -/
theorem extractFrom_good
    {fs : TarFileSystem} {tar : List UInt8} {history : List Event} {loc : ℕ}
    (hlt : loc < tar.length)
    (hgood : readHeader tar loc ≠ .malformed ∧ readHeader tar loc ≠ .trapping) :
    extractFrom fs tar history loc =
      if (perform fs history ((readHeader tar loc).creation tar loc)).2 then
        { extractFrom fs tar
            (history ++ (perform fs history ((readHeader tar loc).creation tar loc)).1)
            (loc + (readHeader tar loc).blockCount * tarBlockSize) with
          visited := loc :: (extractFrom fs tar
            (history ++ (perform fs history ((readHeader tar loc).creation tar loc)).1)
            (loc + (readHeader tar loc).blockCount * tarBlockSize)).visited
          events := (perform fs history ((readHeader tar loc).creation tar loc)).1 ++
            (extractFrom fs tar
              (history ++ (perform fs history ((readHeader tar loc).creation tar loc)).1)
              (loc + (readHeader tar loc).blockCount * tarBlockSize)).events }
      else ⟨.refused, [loc], (perform fs history ((readHeader tar loc).creation tar loc)).1⟩ := by
  rw [extractFrom, if_pos hlt]
  dsimp only
  rw [if_neg hgood.1, if_neg hgood.2]

theorem contained_of_safe
    {path tar : List UInt8}
    (hsafe : ∀ loc, Reaches tar loc → HeaderSafe path tar loc)
    (fs : TarFileSystem) (history : List Event) (loc : ℕ)
    (hloc : loc < tar.length → Reaches tar loc) :
    Contained path tar (extractFrom fs tar history loc) := by
  induction history, loc using extractFrom.induct fs tar with
  | case1 history loc hlt h hbad =>
      rw [extractFrom, if_pos hlt]
      dsimp only
      rw [if_pos hbad]
      exact ⟨by simp, Stop.noConfusion, fun _ _ _ => rfl⟩
  | case2 history loc hlt h hnot hbad =>
      have := headerSafe_iff.mp (hsafe loc (hloc hlt))
      rw [show readHeader tar loc = .trapping from hbad] at this
      exact this.elim
  | case3 history loc hlt h hnot hnot' done hdone ih =>
      have hgood : readHeader tar loc ≠ .malformed ∧ readHeader tar loc ≠ .trapping :=
        ⟨hnot, hnot'⟩
      have hbelow := @Header.Safe.creation path tar loc _ (headerSafe_iff.mp (hsafe loc (hloc hlt)))
      obtain ⟨hrest, hstop, hmalformed⟩ := ih (fun hlt' => .next (hloc hlt) hgood hlt')
      rw [extractFrom_good hlt hgood, if_pos hdone]
      refine ⟨?_, hstop, ?_⟩
      · intro e he
        rcases List.mem_append.mp he with he | he
        · obtain ⟨create, hcreate, hname⟩ := name_of_mem_perform he
          rw [hname]
          exact hbelow create hcreate
        · exact hrest e he
      · intro l hl hbad
        rcases List.mem_cons.mp hl with rfl | hl
        · exact absurd hbad (not_or.mpr hgood)
        · exact hmalformed l hl hbad
  | case4 history loc hlt h hnot hnot' done hdone =>
      have hgood : readHeader tar loc ≠ .malformed ∧ readHeader tar loc ≠ .trapping :=
        ⟨hnot, hnot'⟩
      have hbelow := @Header.Safe.creation path tar loc _ (headerSafe_iff.mp (hsafe loc (hloc hlt)))
      rw [extractFrom_good hlt hgood, if_neg hdone]
      refine ⟨?_, Stop.noConfusion, ?_⟩
      · intro e he
        obtain ⟨create, hcreate, hname⟩ := name_of_mem_perform he
        rw [hname]
        exact hbelow create hcreate
      · intro l hl hbad
        obtain rfl := List.mem_singleton.mp hl
        exact absurd hbad (not_or.mpr hgood)
  | case5 history loc hge =>
      rw [extractFrom, if_neg hge]
      exact ⟨by simp, Stop.noConfusion, by simp⟩

/-- An empty file system that never fails. -/
def willing : TarFileSystem where
  fileExists _ _ := false
  succeeds _ _ := true

theorem perform_willing
    (history : List Event) (creation : Option Event) :
    perform willing history creation = (creation.toList, true) := by
  cases creation <;> rfl

/-- With a file system that does not fail every reached header is read. -/
theorem contained_from_of_reaches
    {path tar : List UInt8} {loc : ℕ}
    (h : Contained path tar (extract willing tar))
    (hloc : Reaches tar loc) :
    ∃ history, Contained path tar (extractFrom willing tar history loc) := by
  induction hloc with
  | start _ =>
      exact ⟨[], h⟩
  | next hloc hgood _ ih =>
      obtain ⟨history, hbelow, hstop, hmalformed⟩ := ih
      rw [extractFrom_good hloc.lt hgood, perform_willing, if_pos rfl] at hbelow hstop hmalformed
      exact ⟨_, fun e he => hbelow e (List.mem_append_right _ he), hstop,
        fun l hl => hmalformed l (List.mem_cons_of_mem _ hl)⟩

theorem safe_of_contained
    {path tar : List UInt8} {history : List Event} {loc : ℕ}
    (hlt : loc < tar.length)
    (h : Contained path tar (extractFrom willing tar history loc)) :
    (readHeader tar loc).Safe path := by
  obtain ⟨hbelow, hstop, -⟩ := h
  by_cases htrap : readHeader tar loc = .trapping
  · rw [extractFrom, if_pos hlt] at hstop
    dsimp only at hstop
    rw [if_neg (by rw [htrap]; decide), if_pos htrap] at hstop
    exact absurd rfl hstop
  · by_cases hmal : readHeader tar loc = .malformed
    · rw [hmal]
      trivial
    · rw [extractFrom_good hlt ⟨hmal, htrap⟩, perform_willing, if_pos rfl] at hbelow
      cases hread : readHeader tar loc with
      | file name size =>
          rw [hread] at hbelow
          exact hbelow _ (List.mem_append_left _ List.mem_cons_self)
      | directory name =>
          rw [hread] at hbelow
          exact hbelow _ (List.mem_append_left _ List.mem_cons_self)
      | trapping => exact absurd hread htrap
      | _ => trivial

/-- **Extraction stays inside its target.**  Whatever the file system does, only
paths below the destination are touched and nothing traps, if and only if the
headers that are reached have names below the destination and sizes that can be
read. -/
theorem extract_contained_iff
    (path tar : List UInt8) :
    (∀ fs, Contained path tar (extract fs tar)) ↔
      ∀ loc, Reaches tar loc → HeaderSafe path tar loc := by
  constructor
  · intro h loc hloc
    obtain ⟨history, hfrom⟩ := contained_from_of_reaches (h willing) hloc
    exact headerSafe_iff.mpr (safe_of_contained hloc.lt hfrom)
  · intro h fs
    refine contained_of_safe h fs [] 0 (fun hlt => .start hlt)

/-- A directory with the name `..`, for the destination `/a`. -/
def parentArchive : List UInt8 :=
  [0x2e, 0x2e] ++ List.replicate 154 0 ++ [53] ++ List.replicate 355 0

/-- The parent of the destination is removed. -/
theorem not_extract_contained :
    ¬ ∀ (path tar : List UInt8) (fs : TarFileSystem), Contained path tar (extract fs tar) := by
  intro hall
  have hlength : 0 < parentArchive.length := by decide +kernel
  have hread : readHeader parentArchive 0 =
      .directory ([0x2e, 0x2e] ++ List.replicate 98 0) := by
    decide +kernel
  have hsafe := safe_of_contained hlength (hall [0x2f, 0x61] parentArchive willing)
  rw [hread] at hsafe
  have hnot : ¬ Below [0x2f, 0x61] ([0x2e, 0x2e] ++ List.replicate 98 0) := by
    decide +kernel
  exact hnot hsafe

end BRTar

end BreadwalletCore
