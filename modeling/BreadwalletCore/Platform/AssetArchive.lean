import Mathlib.Tactic

/-!
# Updating an asset archive

`AssetArchive.update` with `downloadCompleteArchive` and `downloadAndPatchArchive`,
and `BRAPIClient.updateBundles`, which waits for the updates of all archives.

* Every step that can throw, and every answer of the server, is an outcome that
  is given from outside.  A step that throws leaves the files as they are; the
  patch writes its result atomically.
* `calls` lists what the completion handler is called with.
-/

namespace BreadwalletCore

/-- Which step an error comes from. -/
inductive UpdateStage
  | directory
  | versions
  | download
  | extract
deriving DecidableEq

/-- An error; `none` is `BRAPIClientError.unknownError`. -/
structure UpdateError (ε : Type) where
  stage : UpdateStage
  error : Option ε
deriving DecidableEq

/-- The files of an archive. -/
structure ArchiveFiles where
  archive : Option (List UInt8) := none
  diff : Option (List UInt8) := none
  old : Option (List UInt8) := none
  extracted : Bool := false
deriving DecidableEq

/-- What the server is asked for. -/
inductive AssetRequest
  | versions
  | archive
  | diff (fromVersion : String)
deriving DecidableEq

/-- The answer to a request: data and error. -/
abbrev Answer (ε α : Type) := Option α × Option ε

/-- How the steps of an update turn out: `some e` is thrown. -/
structure UpdateOutcome (ε : Type) where
  /-- `ensureExtractedPath`, and whether its error is 512 of `NSCocoaErrorDomain` -/
  ensureExtractedPath : Option (ε × Bool)
  removeBundleDir : Option ε
  createExtracted : Option ε
  /-- the archive that was shipped with the app -/
  bundled : Option (List UInt8)
  copyBundled : Option ε
  assetVersions : Answer ε (List String)
  /-- `Data(contentsOf:)` of the archive -/
  readArchive : Option ε
  assetArchive : Answer ε (List UInt8)
  writeArchive : Option ε
  assetDiff : Answer ε (List UInt8)
  removeStaleDiff : Option ε
  removeStaleOld : Option ε
  writeDiff : Option ε
  moveArchive : Option ε
  patch : Option ε
  patched : List UInt8
  removeDiff : Option ε
  removeOld : Option ε
  extractArchive : Option ε
  cleanDiff : Option ε
  cleanOld : Option ε
  cleanArchive : Option ε

/-- What an update has done. -/
structure UpdateResult (ε : Type) where
  files : ArchiveFiles
  requests : List AssetRequest
  calls : List (Option (UpdateError ε))

/-- A step with its outcome and what it does when it does not throw. -/
abbrev FileStep (ε : Type) := Option ε × (ArchiveFiles → ArchiveFiles)

variable {ε : Type}

/-- `do { try … try … }`: the files behind the last step, and what was thrown. -/
def runSteps (files : ArchiveFiles) : List (FileStep ε) → ArchiveFiles × Option ε
  | [] => (files, none)
  | (some e, _) :: _ => (files, some e)
  | (none, act) :: steps => runSteps (act files) steps

/-- `_ = try? step` -/
def attempt (files : ArchiveFiles) (step : FileStep ε) : ArchiveFiles :=
  if step.1 = none then step.2 files else files

namespace UpdateOutcome

variable (o : UpdateOutcome ε) (versionOf : List UInt8 → String) (files : ArchiveFiles)

/-- The steps behind the download of the complete archive. -/
def completeSteps (data : List UInt8) : List (FileStep ε) :=
  [(o.writeArchive, fun f => { f with archive := some data }),
    (o.extractArchive, id)]

/-- `downloadCompleteArchive`. -/
def downloadCompleteArchive : UpdateResult ε :=
  match o.assetArchive with
  | (_, some err) => ⟨files, [.archive], [some ⟨.download, err⟩]⟩
  | (none, none) => ⟨files, [.archive], [some ⟨.download, none⟩]⟩
  | (some data, none) =>
      match runSteps files (o.completeSteps data) with
      | (files, none) => ⟨files, [.archive], [none]⟩
      | (files, some e) =>
          ⟨files, [.archive],
            [some ⟨if o.writeArchive = none then .extract else .download, e⟩]⟩

/-- The steps of the patch. -/
def patchSteps (data : List UInt8) : List (FileStep ε) :=
  (if files.diff.isSome then [(o.removeStaleDiff, fun f => { f with diff := none })] else []) ++
  (if files.old.isSome then [(o.removeStaleOld, fun f => { f with old := none })] else []) ++
  [(o.writeDiff, fun f => { f with diff := some data }),
    (o.moveArchive, fun f => { f with archive := none, old := f.archive }),
    (o.patch, fun f => { f with archive := some o.patched }),
    (o.removeDiff, fun f => { f with diff := none }),
    (o.removeOld, fun f => { f with old := none }),
    (o.extractArchive, id)]

/-- The clean-up of the patch. -/
def cleanUp : ArchiveFiles :=
  let files := attempt files (o.cleanDiff, fun f => { f with diff := none })
  let files := attempt files (o.cleanOld, fun f => { f with old := none })
  attempt files (o.cleanArchive, fun f => { f with archive := none })

/-- `downloadAndPatchArchive`.  Behind the clean-up the handler is not called. -/
def downloadAndPatchArchive (fromVersion : String) : UpdateResult ε :=
  let requests := [.versions, .diff fromVersion]
  match o.assetDiff with
  | (_, some err) => ⟨files, requests, [some ⟨.download, err⟩]⟩
  | (none, none) => ⟨files, requests, [some ⟨.download, none⟩]⟩
  | (some data, none) =>
      match runSteps files (o.patchSteps files data) with
      | (files, none) => ⟨files, requests, [none]⟩
      | (files, some _) => ⟨o.cleanUp files, requests, []⟩

/-- The directory: the files behind it, and what the handler is called with if it
could not be made. -/
def prepareDirectory : ArchiveFiles × Option ε :=
  if files.extracted then (files, none)
  else
    match o.ensureExtractedPath with
    | none => ({ files with extracted := true }, none)
    | some (_, true) =>
        runSteps files
          [(o.removeBundleDir, fun _ => {}),
            (o.createExtracted, fun f => { f with extracted := true })]
    | some (e, false) => (files, some e)

/-- `copyBundledArchive`, where the archive does not exist. -/
def copyBundledArchive : ArchiveFiles :=
  match files.archive, o.bundled with
  | none, some data => attempt files (o.copyBundled, fun f => { f with archive := some data })
  | _, _ => files

/-- `version`. -/
def version (archive : List UInt8) : Option String :=
  if o.readArchive = none then some (versionOf archive) else none

/-- The handler of `getAssetVersions`. -/
def compareVersion (archive : List UInt8) : UpdateResult ε :=
  match o.assetVersions with
  | (_, some err) => ⟨files, [.versions], [some ⟨.versions, err⟩]⟩
  | (none, none) => ⟨files, [.versions], [some ⟨.versions, none⟩]⟩
  | (some versions, none) =>
      match o.version versionOf archive with
      | none => ⟨files, [.versions], [some ⟨.versions, none⟩]⟩
      | some version =>
          if versions.idxOf version + 1 = versions.length then
            match runSteps files [(o.extractArchive, id)] with
            | (files, none) => ⟨files, [.versions], [none]⟩
            | (files, some _) => ⟨files, [.versions], [some ⟨.extract, none⟩]⟩
          else o.downloadAndPatchArchive files version

/-- `update`. -/
def update : UpdateResult ε :=
  match o.prepareDirectory files with
  | (files, some e) => ⟨files, [], [some ⟨.directory, e⟩]⟩
  | (files, none) =>
      let files := o.copyBundledArchive files
      match files.archive with
      | none => o.downloadCompleteArchive files
      | some archive => o.compareVersion versionOf files archive

/-- The files and the data with which the patch starts, where it comes to that. -/
def patchStart : Option (ArchiveFiles × List UInt8) :=
  match o.prepareDirectory files with
  | (_, some _) => none
  | (files, none) =>
      let files := o.copyBundledArchive files
      match files.archive with
      | none => none
      | some archive =>
          match o.assetVersions with
          | (some versions, none) =>
              match o.version versionOf archive with
              | none => none
              | some version =>
                  if versions.idxOf version + 1 = versions.length then none
                  else
                    match o.assetDiff with
                    | (some data, none) => some (files, data)
                    | _ => none
          | _ => none

/-- The patch is tried, and one of its steps throws. -/
def PatchThrows : Prop :=
  ∃ start data, o.patchStart versionOf files = some (start, data) ∧
    ∃ step ∈ o.patchSteps start data, step.1 ≠ none

/-- The archive that the update finds. -/
def found : Option (List UInt8) :=
  (o.copyBundledArchive (o.prepareDirectory files).1).archive

/-- The handler is called once, and behind a failed download the archive is the
old one or absent; an absent one is downloaded next time, if none was shipped. -/
structure Completes : Prop where
  once : (o.update versionOf files).calls.length = 1
  kept : ∀ err, some err ∈ (o.update versionOf files).calls →
    err.stage = .versions ∨ err.stage = .download →
      (o.update versionOf files).files.archive = o.found files ∨
        (o.update versionOf files).files.archive = none
  next : (o.update versionOf files).files.archive = none → ∀ o' : UpdateOutcome ε,
    o'.bundled = none → (o'.prepareDirectory (o.update versionOf files).files).2 = none →
      (o'.update versionOf (o.update versionOf files).files).requests = [.archive]

end UpdateOutcome

/-! ## One update -/

section Update

variable {o : UpdateOutcome ε} {versionOf : List UInt8 → String} {files : ArchiveFiles}

theorem runSteps_eq_none_iff
    {steps : List (FileStep ε)} :
    (runSteps files steps).2 = none ↔ ∀ step ∈ steps, step.1 = none := by
  induction steps generalizing files with
  | nil =>
      simp [runSteps]
  | cons step steps ih =>
      obtain ⟨outcome, act⟩ := step
      cases outcome with
      | none => simp [runSteps, ih]
      | some e => simp [runSteps]

theorem downloadCompleteArchive_once
    (o : UpdateOutcome ε) (files : ArchiveFiles) :
    (o.downloadCompleteArchive files).calls.length = 1 := by
  rw [UpdateOutcome.downloadCompleteArchive]
  split
  · rfl
  · rfl
  · split <;> rfl

/-- A complete archive that was not written is not there. -/
theorem downloadCompleteArchive_kept
    {err : UpdateError ε}
    (h : some err ∈ (o.downloadCompleteArchive files).calls)
    (hstage : err.stage = .versions ∨ err.stage = .download) :
    (o.downloadCompleteArchive files).files = files := by
  rw [UpdateOutcome.downloadCompleteArchive] at h ⊢
  split
  · rfl
  · rfl
  · rename_i data _
    cases hwrite : o.writeArchive with
    | some e =>
        simp [UpdateOutcome.completeSteps, runSteps, hwrite]
    | none =>
        -- behind the file only the extraction can throw
        cases hextract : o.extractArchive with
        | none => simp_all [UpdateOutcome.completeSteps, runSteps]
        | some e => simp_all [UpdateOutcome.completeSteps, runSteps]

/-- The handler is called once, but not at all if `p`. -/
def CalledUnless (r : UpdateResult ε) (p : Prop) : Prop :=
  r.calls.length = 1 ∧ ¬ p ∨ r.calls = [] ∧ p

theorem downloadAndPatchArchive_called
    (o : UpdateOutcome ε) (files : ArchiveFiles) (version : String) :
    CalledUnless (o.downloadAndPatchArchive files version)
      (∃ data, o.assetDiff = (some data, none) ∧
        ∃ step ∈ o.patchSteps files data, step.1 ≠ none) := by
  rw [UpdateOutcome.downloadAndPatchArchive]
  split
  · rename_i data err hdiff
    exact .inl ⟨rfl, fun ⟨_, h, _⟩ => by rw [hdiff] at h; cases h⟩
  · rename_i hdiff
    exact .inl ⟨rfl, fun ⟨_, h, _⟩ => by rw [hdiff] at h; cases h⟩
  · rename_i data hdiff
    have hiff := @runSteps_eq_none_iff ε files (o.patchSteps files data)
    split
    · rename_i files' hrun
      rw [hrun] at hiff
      refine .inl ⟨rfl, fun ⟨data', h, step, hstep, hthrown⟩ => ?_⟩
      rw [hdiff] at h
      cases h
      exact hthrown (hiff.mp rfl step hstep)
    · rename_i files' e hrun
      rw [hrun] at hiff
      refine .inr ⟨rfl, data, hdiff, ?_⟩
      by_contra hnone
      exact absurd (hiff.mpr (fun step hstep => by_contra fun h => hnone ⟨step, hstep, h⟩))
        (Option.some_ne_none e)

theorem CalledUnless.congr
    {r : UpdateResult ε} {p q : Prop}
    (h : CalledUnless r p)
    (hiff : p ↔ q) :
    CalledUnless r q := by
  rwa [← hiff]

/-- The only way out without a call is the clean-up behind the patch. -/
theorem update_called
    (o : UpdateOutcome ε) (versionOf : List UInt8 → String) (files : ArchiveFiles) :
    CalledUnless (o.update versionOf files) (o.PatchThrows versionOf files) := by
  rw [UpdateOutcome.update, UpdateOutcome.PatchThrows, UpdateOutcome.patchStart]
  cases hdir : o.prepareDirectory files with
  | mk prepared thrown =>
  cases thrown with
  | some e =>
      exact .inl ⟨rfl, fun ⟨_, _, h, _⟩ => by cases h⟩
  | none =>
  dsimp only
  generalize o.copyBundledArchive prepared = copied
  cases harchive : copied.archive with
  | none =>
      exact .inl ⟨downloadCompleteArchive_once o _, fun ⟨_, _, h, _⟩ => by cases h⟩
  | some archive =>
  dsimp only
  rw [UpdateOutcome.compareVersion]
  split
  · rename_i versions err hversions
    refine .inl ⟨rfl, fun ⟨_, _, h, _⟩ => ?_⟩
    rw [hversions] at h
    cases versions <;> cases h
  · rename_i hversions
    refine .inl ⟨rfl, fun ⟨_, _, h, _⟩ => ?_⟩
    rw [hversions] at h
    cases h
  · rename_i versions hversions
    rw [hversions]
    cases o.version versionOf archive with
    | none =>
        exact .inl ⟨rfl, fun ⟨_, _, h, _⟩ => by cases h⟩
    | some version =>
        dsimp only
        by_cases hlast : versions.idxOf version + 1 = versions.length
        · rw [if_pos hlast, if_pos hlast]
          exact .inl ⟨by split <;> rfl, fun ⟨_, _, h, _⟩ => by cases h⟩
        · rw [if_neg hlast, if_neg hlast]
          refine (downloadAndPatchArchive_called o copied version).congr ?_
          constructor
          · rintro ⟨data, hdiff, hthrown⟩
            exact ⟨copied, data, by rw [hdiff], hthrown⟩
          · rintro ⟨start, data, hstart, hthrown⟩
            split at hstart
            · rename_i data' hdiff
              cases hstart
              exact ⟨data, hdiff, hthrown⟩
            · cases hstart

theorem downloadAndPatchArchive_kept
    {version : String} {err : UpdateError ε}
    (h : some err ∈ (o.downloadAndPatchArchive files version).calls) :
    (o.downloadAndPatchArchive files version).files = files := by
  rw [UpdateOutcome.downloadAndPatchArchive] at h ⊢
  split
  · rfl
  · rfl
  · rename_i data hdiff
    rw [hdiff] at h
    dsimp only at h
    split at h <;> simp at h

theorem compareVersion_kept
    {archive : List UInt8} {err : UpdateError ε}
    (h : some err ∈ (o.compareVersion versionOf files archive).calls) :
    (o.compareVersion versionOf files archive).files = files := by
  rw [UpdateOutcome.compareVersion] at h ⊢
  split at h
  · rfl
  · rfl
  · rename_i versions _
    cases hversion : o.version versionOf archive with
    | none =>
        rfl
    | some version =>
        rw [hversion] at h
        dsimp only at h ⊢
        by_cases hlast : versions.idxOf version + 1 = versions.length
        · rw [if_pos hlast]
          cases hextract : o.extractArchive <;> rfl
        · rw [if_neg hlast] at h ⊢
          exact downloadAndPatchArchive_kept h

/-- Behind an error of the server or of a download the archive is the one that
was found. -/
theorem update_kept
    {err : UpdateError ε}
    (h : some err ∈ (o.update versionOf files).calls)
    (hstage : err.stage = .versions ∨ err.stage = .download) :
    (o.update versionOf files).files.archive = o.found files := by
  rw [UpdateOutcome.found]
  rw [UpdateOutcome.update] at h ⊢
  cases hdir : o.prepareDirectory files with
  | mk prepared thrown =>
  rw [hdir] at h
  cases thrown with
  | some e =>
      rw [List.mem_singleton] at h
      cases h
      rcases hstage with hstage | hstage <;> cases hstage
  | none =>
  dsimp only at h ⊢
  generalize o.copyBundledArchive prepared = copied at h ⊢
  cases harchive : copied.archive with
  | none =>
      rw [harchive] at h
      dsimp only at h ⊢
      rw [downloadCompleteArchive_kept h hstage, harchive]
  | some archive =>
      rw [harchive] at h
      dsimp only at h ⊢
      rw [compareVersion_kept h, harchive]

theorem prepareDirectory_archive
    (hnone : files.archive = none) :
    (o.prepareDirectory files).1.archive = none := by
  rw [UpdateOutcome.prepareDirectory]
  split
  · exact hnone
  · split
    · exact hnone
    · cases hremove : o.removeBundleDir with
      | some e => exact hnone
      | none => cases hcreate : o.createExtracted <;> rfl
    · exact hnone

/-- Without an archive and without a shipped one the complete archive is asked
for. -/
theorem update_requests
    (hnone : files.archive = none)
    (hbundled : o.bundled = none)
    (hdir : (o.prepareDirectory files).2 = none) :
    (o.update versionOf files).requests = [.archive] := by
  have harchive := @prepareDirectory_archive ε o files hnone
  rw [UpdateOutcome.update]
  cases hprepared : o.prepareDirectory files with
  | mk prepared thrown =>
  rw [hprepared] at hdir harchive
  cases hdir
  have hcopied : o.copyBundledArchive prepared = prepared := by
    rw [UpdateOutcome.copyBundledArchive, hbundled]
    split
    · rename_i h
      cases h
    · rfl
  dsimp only at harchive ⊢
  rw [hcopied, harchive]
  dsimp only
  rw [UpdateOutcome.downloadCompleteArchive]
  split
  · rfl
  · rfl
  · split <;> rfl

end Update

/-! ## All archives -/

/-- An archive with the outcome of its update. -/
structure AssetBundle (ε : Type) where
  name : String
  files : ArchiveFiles
  outcome : UpdateOutcome ε

/-- What `updateBundles` meets: the outcome of `ensureBundlePaths`, and the
archives, if their names could be read. -/
structure BundlesOutcome (ε : Type) where
  ensureBundlePaths : Option ε
  bundles : Option (List (AssetBundle ε))

namespace BundlesOutcome

variable (o : BundlesOutcome ε) (versionOf : List UInt8 → String)

/-- The archives whose update is started. -/
def started : List (AssetBundle ε) :=
  if o.ensureBundlePaths = none then o.bundles.getD [] else []

/-- `updateBundles`: what its completion handler is called with.  The group is
entered for each archive and left in each call of its handler. -/
def updateBundles : List (List (String × Option (UpdateError ε))) :=
  match o.ensureBundlePaths, o.bundles with
  | some e, _ => [[("INVALID", some ⟨.directory, some e⟩)]]
  | none, none => [[("INVALID", some ⟨.directory, none⟩)]]
  | none, some bundles =>
      let calls := bundles.map (fun b => (b.outcome.update versionOf b.files).calls)
      if (calls.map List.length).sum = bundles.length then
        [List.zipWith (fun b c => (b.name, (c.head?).join)) bundles calls]
      else []

/-- Every update completes, and so does the whole. -/
structure AllComplete : Prop where
  each : ∀ b ∈ o.started, b.outcome.Completes versionOf b.files
  once : (o.updateBundles versionOf).length = 1

end BundlesOutcome

theorem completes_iff
    (o : UpdateOutcome ε) (versionOf : List UInt8 → String) (files : ArchiveFiles) :
    o.Completes versionOf files ↔ ¬ o.PatchThrows versionOf files := by
  constructor
  · intro h hthrows
    rcases update_called o versionOf files with ⟨-, hnot⟩ | ⟨hnil, -⟩
    · exact hnot hthrows
    · have honce := h.once
      rw [hnil] at honce
      cases honce
  · intro hnot
    refine ⟨?_, fun err herr hstage => .inl (update_kept herr hstage),
      fun hnone o' hbundled hdir => update_requests hnone hbundled hdir⟩
    exact ((update_called o versionOf files).resolve_right (fun h => hnot h.2)).1

/-- **Bundle updates complete.**  The update of each archive calls its handler
once, and `updateBundles` calls its own, exactly if no step of a patch throws. -/
theorem updateBundles_completes_iff
    (o : BundlesOutcome ε) (versionOf : List UInt8 → String) :
    o.AllComplete versionOf ↔
      ∀ b ∈ o.started, ¬ b.outcome.PatchThrows versionOf b.files := by
  constructor
  · intro h b hb
    exact (completes_iff _ _ _).mp (h.each b hb)
  · intro h
    refine ⟨fun b hb => (completes_iff _ _ _).mpr (h b hb), ?_⟩
    rw [BundlesOutcome.updateBundles]
    rw [BundlesOutcome.started] at h
    cases hpaths : o.ensureBundlePaths with
    | some e => cases o.bundles <;> rfl
    | none =>
        rw [if_pos hpaths] at h
        cases hbundles : o.bundles with
        | none => rfl
        | some bundles =>
            rw [hbundles, Option.getD_some] at h
            have hones : (bundles.map (fun b =>
                (b.outcome.update versionOf b.files).calls.length)).sum = bundles.length := by
              rw [List.map_congr_left (fun b hb => ((completes_iff _ _ _).mpr (h b hb)).once)]
              simp
            dsimp only
            rw [List.map_map]
            exact congrArg List.length (if_pos hones)

section Sample

/-- An update in which nothing fails: an archive at version a, and a diff. -/
def smoothOutcome : UpdateOutcome String where
  ensureExtractedPath := none
  removeBundleDir := none
  createExtracted := none
  bundled := none
  copyBundled := none
  assetVersions := (some ["a", "b"], none)
  readArchive := none
  assetArchive := (some [], none)
  writeArchive := none
  assetDiff := (some [1], none)
  removeStaleDiff := none
  removeStaleOld := none
  writeDiff := none
  moveArchive := none
  patch := none
  patched := [2]
  removeDiff := none
  removeOld := none
  extractArchive := none
  cleanDiff := none
  cleanOld := none
  cleanArchive := none

/-- A diff that is damaged. -/
def damagedOutcome : UpdateOutcome String :=
  { smoothOutcome with patch := some "corruptPatch" }

/-- `updateBundles` never answers. -/
theorem damagedOutcome_waits :
    let o : BundlesOutcome String := ⟨none, some [⟨"bundle", { archive := some [0] },
      damagedOutcome⟩]⟩
    (damagedOutcome.update (fun _ => "a") { archive := some [0] }).calls = [] ∧
      o.updateBundles (fun _ => "a") = [] ∧ ¬ o.AllComplete (fun _ => "a") := by
  intro o
  have hnone : o.updateBundles (fun _ => "a") = [] := by
    decide
  refine ⟨by decide, hnone, fun h => ?_⟩
  have honce := h.once
  rw [hnone] at honce
  cases honce

end Sample

end BreadwalletCore
