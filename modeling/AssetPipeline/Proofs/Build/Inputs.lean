import AssetPipeline.Proofs.Build.Cycles
import AssetPipeline.Proofs.Build.FileList
import AssetPipeline.Proofs.Files.Naming

/-! Source files as inputs. As long as every name on the way to a file is listed as it is, a listing has no
path twice, and every path in it, put behind the root, is that of a file which is there. So are then the
inputs of the edges over the source directory, and no bundle is fed one file twice. -/

namespace AssetPipeline

theorem Builder.Makes.nodup_inputs {b : Builder} {root : String} {files : List String} {edges : List Edge}
    {e : Edge} (h : b.Makes root files edges) (hfiles : files.Nodup) (he : e ∈ edges) : e.inputs.Nodup := by
  cases h with
  | single h =>
      obtain ⟨file, -, rule, target, name, -, -, -, rfl⟩ := exists_of_forall₂ h he
      exact List.nodup_singleton _
  | bundle =>
      rw [List.mem_singleton.mp he]
      exact hfiles.map (Path.joinRoot_injective root)
  | idle => cases he

/-- What a pattern resolves to is part of a listing. -/
theorem Sources.exists_list_of_resolve {s : Sources} {pattern : String} {files : List String}
    (h : s.resolve pattern = .ok files) : ∃ hidden all, s.list hidden = .ok all ∧ files.Sublist all := by
  obtain ⟨glob, -, h⟩ := bind_eq_ok_iff.mp h
  obtain ⟨all, hall, h⟩ := bind_eq_ok_iff.mp h
  cases h
  exact ⟨_, all, hall, List.filter_sublist⟩

theorem Workspace.KeepsNames.nodup_and_isFile {w : Workspace} {root : String} (hdisk : w.root.OnDisk)
    (hkeeps : w.KeepsNames root) (hdir : w.isDir root = true) (hidden : Bool) :
    ∃ files, (Sources.ofWorkspace w root).list hidden = .ok files ∧ files.Nodup ∧
      ∀ file ∈ files, (w.isFile (Path.joinRoot root file) = true ↔
        (Path.joinRoot root file).utf8ByteSize ≤ Route.maxPathBytes) := by
  obtain ⟨files, hfiles, hordered, hmem⟩ := hkeeps.exists_files hdisk hdir hidden
  refine ⟨files, mapError_eq_ok_iff.mpr hfiles, hordered.nodup, fun file hfile => ?_⟩
  obtain ⟨names, hreaches, -, rfl⟩ := (hmem file).mp hfile
  exact isFile_joinRoot_iff hdisk hreaches (hkeeps names hreaches)

/-- Where names are listed as they are, the files of a listing differ, and each is there under its path, if
only the system takes a path of that length. The same holds of the inputs of the edges that are made of
them. -/
theorem inputs_exist {w : Workspace} {root : String} (hdisk : w.root.OnDisk) (hdir : w.isDir root = true)
    (hkeeps : w.KeepsNames root) :
    (∀ hidden, ∃ files, (Sources.ofWorkspace w root).list hidden = .ok files ∧ files.Nodup ∧
      ∀ file ∈ files, (w.isFile (Path.joinRoot root file) = true ↔
        (Path.joinRoot root file).utf8ByteSize ≤ Route.maxPathBytes)) ∧
    ∀ d c, compile (.ofWorkspace w root) d = .ok c → ∃ first second : List (List Edge),
      d.ExpandsTo (.ofWorkspace w root) first second ∧
      c.graph.edges = first.flatten ++ second.flatten ∧
      ∀ e ∈ first.flatten, e.inputs.Nodup ∧ ∀ input ∈ e.inputs,
        (w.isFile input = true ↔ input.utf8ByteSize ≤ Route.maxPathBytes) := by
  have hlisted := hkeeps.nodup_and_isFile hdisk hdir
  refine ⟨hlisted, fun d c hcompile => ?_⟩
  obtain ⟨first, second, hexpands, hedges, -⟩ := compile_edges hcompile
  refine ⟨first, second, hexpands, hedges, fun e he => ?_⟩
  obtain ⟨edges, hmem, he⟩ := List.mem_flatten.mp he
  obtain ⟨b, -, files, hresolve, hmakes⟩ := exists_of_forall₂ hexpands.source hmem
  obtain ⟨hidden, all, hall, hsublist⟩ := Sources.exists_list_of_resolve hresolve
  obtain ⟨all', hall', hnodup, hfile⟩ := hlisted hidden
  cases hall.symm.trans hall'
  refine ⟨hmakes.nodup_inputs (hnodup.sublist hsublist) he, fun input hinput => ?_⟩
  obtain ⟨file, hmem, rfl⟩ := hmakes.mem_inputs he hinput
  exact hfile file (hsublist.subset hmem)

theorem onDisk_bareEntries : (sourceWorkspace bareEntries).root.OnDisk := by
  have hnames : ∀ name ∈ [("src" : RawPath), "art", "hero.psd"], IsEntryName name := by decide
  simp_all [sourceWorkspace, bareEntries, Node.OnDisk]

theorem keepsNames_bareEntries : (sourceWorkspace bareEntries).KeepsNames "src" :=
  .of_each (by simp [sourceWorkspace, bareEntries]) "src"

theorem inputs_exist_bare :
    (Sources.ofWorkspace (sourceWorkspace bareEntries) "src").list false = .ok ["art/hero.psd"] ∧
      (sourceWorkspace bareEntries).isFile "src/art/hero.psd" = true := by
  have hlist : (Sources.ofWorkspace (sourceWorkspace bareEntries) "src").list false =
      .ok ["art/hero.psd"] := mapError_eq_ok_iff.mpr (listFiles_bareEntries false)
  obtain ⟨files, hfiles, -, hfile⟩ := (inputs_exist onDisk_bareEntries (isDir_sourceWorkspace bareEntries)
    keepsNames_bareEntries).1 false
  cases hlist.symm.trans hfiles
  exact ⟨hlist, (hfile "art/hero.psd" List.mem_cons_self).mpr (by decide)⟩

/-- Names with a backslash, one of which is like the path of another file. -/
def backslashEntries : List (RawPath × Node) :=
  [("a\\b", .file .empty), ("c", .dir [("d", .file .empty)]), ("c\\d", .file .empty)]

theorem onDisk_backslashEntries : (sourceWorkspace backslashEntries).root.OnDisk ∧
    (sourceWorkspace backslashEntries.tail).root.OnDisk := by
  have hnames : ∀ name ∈ [("src" : RawPath), "a\\b", "c", "d", "c\\d"], IsEntryName name := by decide
  simp_all [sourceWorkspace, backslashEntries, Node.OnDisk]

theorem listFiles_backslashEntries (hidden : Bool) :
    (sourceWorkspace backslashEntries).listFiles "src" hidden = .ok ["a/b", "c/d", "c/d"] ∧
      (sourceWorkspace backslashEntries.tail).listFiles "src" hidden = .ok ["c/d", "c/d"] := by
  have hvisible : ∀ name ∈ ["a\\b", "c", "d", "c\\d"], Path.isHidden name = false := by decide
  have hshort : ¬ Route.maxPathBytes < 4 + "c".utf8ByteSize := by decide
  have hpaths : (sourceWorkspace backslashEntries).root.files hidden 40 ["src"] [["src"]] 4
      backslashEntries = ([["a\\b"], ["c", "d"], ["c\\d"]] : List (List RawPath)) := by
    simp [backslashEntries, Node.files_cons, Node.files_nil, Node.visit, Node.Visit.paths, hshort, hvisible]
  have hpaths' : (sourceWorkspace backslashEntries.tail).root.files hidden 40 ["src"] [["src"]] 4
      backslashEntries.tail = ([["c", "d"], ["c\\d"]] : List (List RawPath)) := by
    simp [backslashEntries, Node.files_cons, Node.files_nil, Node.visit, Node.Visit.paths, hshort, hvisible]
  exact ⟨listFiles_sourceWorkspace hpaths (by decide +kernel) (by decide +kernel),
    listFiles_sourceWorkspace hpaths' (by decide +kernel) (by decide +kernel)⟩

/-- A backslash in a name is written as a slash, so a listing can hold a path twice, and a path that leads
nowhere. -/
theorem list_backslashEntries : (sourceWorkspace backslashEntries).root.OnDisk ∧
    (sourceWorkspace backslashEntries).isDir "src" = true ∧
    (Sources.ofWorkspace (sourceWorkspace backslashEntries) "src").list false =
      .ok ["a/b", "c/d", "c/d"] ∧
    (sourceWorkspace backslashEntries).isFile (Path.joinRoot "src" "a/b") = false := by
  have hmissing : (sourceWorkspace backslashEntries).isFile "src/a/b" = false := by
    have hroute : Route.parse "src/a/b" = .ok ⟨false, ["src", "a", "b"], false⟩ := rfl
    have hlength : ¬ Route.maxNameBytes < "src".utf8ByteSize ∧ ¬ Route.maxNameBytes < "a".utf8ByteSize := by
      decide
    have hnone : List.lookup ("a" : RawPath) backslashEntries = none := by decide
    simp [Workspace.isFile, Workspace.node, Workspace.locate, hroute, sourceWorkspace, bind, Except.bind,
      Route.steps, Route.start, Node.follow, Node.at?, Workspace.maxLinks, hlength, hnone]
  exact ⟨onDisk_backslashEntries.1, isDir_sourceWorkspace _,
    mapError_eq_ok_iff.mpr (listFiles_backslashEntries false).1, hmissing⟩

end AssetPipeline
