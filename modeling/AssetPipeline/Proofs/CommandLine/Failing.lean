import AssetPipeline.Proofs.Build.FileList
import AssetPipeline.Proofs.Files.Making
import AssetPipeline.CommandLine.Run

/-! Runs that fail. A build file is written at the end of a run or not at all. A file list may lack the
directories it is to lie in, and those are made first, so a run that then cannot write the list leaves
directories behind. It leaves nothing else: what had a part in the tree still has it. -/

namespace AssetPipeline

/-! ### Runs -/

namespace CommandLine

variable {program : String} {w w' : Workspace} {outcome : Outcome}

/-- A generation that fails changes nothing. -/
theorem generate_failed {srcPath : String}
    (hrun : runCommand program w (.generate srcPath) = (outcome, w')) (hstatus : outcome.status ≠ 0) :
    w' = w := by
  unfold runCommand at hrun
  dsimp only at hrun
  split at hrun
  · cases hrun
    rfl
  · split at hrun
    · cases hrun
      exact absurd rfl hstatus
    · cases hrun
      rfl

/-- A refresh that fails before it writes changes nothing. -/
theorem refresh_failed {root output : String} {patterns : List String}
    (hrun : runCommand program w (.refresh root output patterns) = (outcome, w'))
    (hstatus : outcome.status ≠ 0) : w.GainsDirectories w' ∧ (w' = w ∨
      (∃ parent fault, outcome = .failed (.createDirectory parent fault)) ∨
        ∃ fault, outcome = .failed (.writeFile output fault)) := by
  unfold runCommand FileList.refresh at hrun
  dsimp only at hrun
  cases hcollect : FileList.collect (.ofWorkspace w root) patterns with
  | error fault =>
      rw [hcollect] at hrun
      cases hrun
      exact ⟨.refl w, .inl rfl⟩
  | ok files =>
      rw [hcollect] at hrun
      dsimp only at hrun
      split at hrun
      · cases hrun
        exact absurd rfl hstatus
      · rename_i failure w'' hwrite
        cases hrun
        obtain ⟨hgains, hfailure⟩ := Workspace.gainsDirectories_writeIfChanged hwrite
        refine ⟨hgains, .inr (hfailure.imp ?_ ?_)⟩
        · rintro ⟨parent, fault, rfl⟩
          exact ⟨parent, fault, rfl⟩
        · rintro ⟨fault, rfl⟩
          exact ⟨fault, rfl⟩

/-- A run that fails leaves the files as they were: none is lost, none is new, and each has its bytes,
where it lies and by every path that leads to it. It may have made directories for a file list that it
then could not write; every other failure comes before any change. -/
theorem run_failed {args : List String} (hrun : run program w args = (outcome, w'))
    (hstatus : outcome.status ≠ 0) :
    (∀ place content,
      w'.root.at? place = some (.file content) ↔ w.root.at? place = some (.file content)) ∧
    (∀ path content, w.readBytes path = .ok content → w'.readBytes path = .ok content) ∧
    w.GainsDirectories w' ∧
    (w' = w ∨ ∃ root output patterns, parse args = some (.run (.refresh root output patterns)) ∧
      ((∃ parent fault, outcome = .failed (.createDirectory parent fault)) ∨
        ∃ fault, outcome = .failed (.writeFile output fault))) := by
  suffices h : w.GainsDirectories w' ∧ (w' = w ∨ ∃ root output patterns,
      parse args = some (.run (.refresh root output patterns)) ∧
      ((∃ parent fault, outcome = .failed (.createDirectory parent fault)) ∨
        ∃ fault, outcome = .failed (.writeFile output fault))) from
    ⟨fun _ _ => h.1.at?_eq_file_iff, fun _ _ => h.1.readBytes, h⟩
  unfold run at hrun
  cases hparse : parse args with
  | none =>
      rw [hparse] at hrun
      cases hrun
      exact ⟨.refl w, .inl rfl⟩
  | some request =>
      rw [hparse] at hrun
      cases request with
      | version | help | refreshHelp | helpHelp =>
          cases hrun
          exact absurd rfl hstatus
      | run command =>
          cases command with
          | generate srcPath =>
              rw [generate_failed hrun hstatus]
              exact ⟨.refl w, .inl rfl⟩
          | refresh root output patterns =>
              obtain ⟨hgains, hfailure⟩ := refresh_failed hrun hstatus
              exact ⟨hgains, hfailure.imp_right fun h => ⟨root, output, patterns, rfl, h⟩⟩

/-- The tree of the atlas with a directory that a refresh has made for a list. -/
def bareWithOut : Workspace :=
  ⟨.dir [("src", .dir bareEntries), ("out", .dir [])], []⟩

/-- A list cannot be written under the name of a directory, but the directory before it is made. -/
theorem run_failed_out : run "assetman" (sourceWorkspace bareEntries)
      ["refresh-file-list", "--root", "src", "--output", "out/..", "**/*.psd"] =
        (.failed (.writeFile "out/.." .isDirectory), bareWithOut) ∧
    ∀ place content, bareWithOut.root.at? place = some (.file content) ↔
      (sourceWorkspace bareEntries).root.at? place = some (.file content) := by
  have hparse : parse ["refresh-file-list", "--root", "src", "--output", "out/..", "**/*.psd"] =
      some (.run (.refresh "src" "out/.." ["**/*.psd"])) := by decide +kernel
  have hroute : Route.parse "out/.." = .ok ⟨false, ["out", ".."], false⟩ := rfl
  have hroute' : Route.parse "out" = .ok ⟨false, ["out"], false⟩ := rfl
  have hlength : ¬ Route.maxNameBytes < "out".utf8ByteSize := by decide
  have hmissing : List.lookup ("out" : RawPath) [("src", Node.dir bareEntries)] = none := rfl
  have hread : (sourceWorkspace bareEntries).readText "out/.." = .error .notFound := by
    simp [Workspace.readText, Workspace.readBytes, Workspace.node, Workspace.locate, hroute,
      sourceWorkspace, bind, Except.bind, Route.steps, Route.start, Node.follow, Node.at?,
      Workspace.maxLinks, hlength, hmissing]
  have hmake : (sourceWorkspace bareEntries).makeDirAll "out" = (.ok (), bareWithOut) := by
    have hancestors : Path.ancestors "out" = ["out"] := by decide
    rw [Workspace.makeDirAll, hancestors]
    simp [Workspace.makeDirs, Workspace.makeDir, hroute', sourceWorkspace, bind, Except.bind,
      Route.start, Node.freePlace, Node.follow, Node.at?, Node.put, Node.putEntry, pure, Except.pure,
      hlength, hmissing, bareWithOut]
  have hwrite : ∀ content, bareWithOut.writeBytes "out/.." content = .error .isDirectory := by
    intro content
    have hhere : List.lookup ("out" : RawPath) [("src", Node.dir bareEntries), ("out", .dir [])] = some (.dir []) := rfl
    simp [Workspace.writeBytes, hroute, bareWithOut, bind, Except.bind, Route.start, Node.creationPlace,
      Node.follow, Node.at?, Workspace.maxLinks, hlength, hhere]
  have hrun : run "assetman" (sourceWorkspace bareEntries)
      ["refresh-file-list", "--root", "src", "--output", "out/..", "**/*.psd"] =
        (.failed (.writeFile "out/.." .isDirectory), bareWithOut) := by
    have hparent : Path.parent? "out/.." = some "out" := by decide
    have hcollect : FileList.collect (.ofWorkspace (sourceWorkspace bareEntries) "src") ["**/*.psd"] =
        .ok ["art/hero.psd"] := by
      simp [FileList.collect, resolve_bareEntries, FileList.dropRepeats, bind, Except.bind, pure,
        Except.pure]
    unfold run
    rw [hparse]
    unfold runCommand FileList.refresh
    dsimp only
    rw [hcollect]
    simp [Workspace.writeIfChanged, Workspace.writeIfChanged.makeParent, hread, hparent, hmake, hwrite,
      Except.toOption]
  exact ⟨hrun, (run_failed hrun (by decide)).1⟩

end CommandLine

end AssetPipeline
