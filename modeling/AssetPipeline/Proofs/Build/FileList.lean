import AssetPipeline.Build.Generation
import AssetPipeline.FileList
import AssetPipeline.Proofs.Build.Expansion
import AssetPipeline.Proofs.Files.Naming

/-! The file list decides the graph. A pattern picks files by their paths alone, hidden ones too, so
what one pattern resolves to is what it picks from the list of all matched files. The first phase of a
compilation asks for nothing else, and the second does not ask at all. -/

namespace AssetPipeline

variable {s s₁ s₂ : Sources} {pattern : String} {patterns files : List String}

/-- Whether a pattern that is read as `glob` picks a path among all paths below a directory. -/
def Glob.picks (glob : Glob) (pattern path : String) : Bool :=
  glob.accepts path && (namesHidden pattern || Path.isVisible path)

theorem Sources.Lists.resolve_eq_ok_iff (h : s.Lists) : s.resolve pattern = .ok files ↔
    ∃ glob all, Glob.compile pattern = .ok glob ∧ s.files true = .ok all ∧
      files = all.filter (glob.picks pattern) := by
  rw [Sources.resolve, bind_eq_ok_iff]
  refine exists_congr fun glob => ?_
  rw [bind_eq_ok_iff]
  simp only [Sources.list, mapError_eq_ok_iff]
  cases hhidden : Glob.namesHidden pattern with
  | true =>
      have hpicks : glob.picks pattern = glob.accepts := by
        funext path
        rw [Glob.picks, hhidden, Bool.true_or, Bool.and_true]
      rw [hpicks]
      constructor
      · rintro ⟨hglob, all, hall, hfiles⟩
        cases hfiles
        exact ⟨all, hglob, hall, rfl⟩
      · rintro ⟨all, hglob, hall, rfl⟩
        exact ⟨hglob, all, hall, rfl⟩
  | false =>
      have hpicks : ∀ all : List String, (all.filter Path.isVisible).filter glob.accepts =
          all.filter (glob.picks pattern) := by
        intro all
        rw [List.filter_filter]
        refine List.filter_congr fun path _ => ?_
        rw [Glob.picks, hhidden, Bool.false_or]
      constructor
      · rintro ⟨hglob, visible, hvisible, hfiles⟩
        cases hfiles
        rw [h.files_false] at hvisible
        cases hall : s.files true with
        | error fault =>
            rw [hall] at hvisible
            cases hvisible
        | ok all =>
            rw [hall] at hvisible
            cases hvisible
            exact ⟨all, hglob, rfl, hpicks all⟩
      · rintro ⟨all, hglob, hall, rfl⟩
        refine ⟨hglob, all.filter Path.isVisible, ?_, ?_⟩
        · rw [h.files_false, hall]
          rfl
        · rw [← hpicks]
          rfl

namespace FileList

theorem mem_dropRepeats_iff {file : String} : file ∈ dropRepeats files ↔ file ∈ files := by
  fun_induction dropRepeats files with
  | case1 => rfl
  | case2 first => rfl
  | case3 next files ih => simp [ih]
  | case4 first next files hne ih => simp only [List.mem_cons, ih]

theorem pairwise_lt_dropRepeats (h : files.Pairwise (· ≤ ·)) :
    (dropRepeats files).Pairwise (· < ·) := by
  fun_induction dropRepeats files with
  | case1 => exact .nil
  | case2 first => exact List.pairwise_singleton _ _
  | case3 next files ih => exact ih h.of_cons
  | case4 first next files hne ih =>
      obtain ⟨hfirst, h⟩ := List.pairwise_cons.mp h
      refine List.pairwise_cons.mpr ⟨fun file hfile => ?_, ih h⟩
      rw [mem_dropRepeats_iff] at hfile
      have hnext : first < next := Std.lt_of_le_of_ne (hfirst next List.mem_cons_self) hne
      rcases List.mem_cons.mp hfile with rfl | hfile
      · exact hnext
      · exact Std.lt_of_lt_of_le hnext (List.rel_of_pairwise_cons h hfile)

/-- A file list is in strict order, and holds what any of the patterns resolves to. -/
theorem collect_eq_ok (h : collect s patterns = .ok files) :
    files.Pairwise (· < ·) ∧ ∃ found, List.Forall₂ (fun p l => s.resolve p = .ok l) patterns found ∧
      ∀ file, file ∈ files ↔ ∃ l ∈ found, file ∈ l := by
  obtain ⟨found, hfound, h⟩ := bind_eq_ok_iff.mp h
  cases h
  refine ⟨pairwise_lt_dropRepeats (pairwise_mergeSort _), found, mapM_eq_ok_iff.mp hfound, fun file => ?_⟩
  rw [mem_dropRepeats_iff, (List.mergeSort_perm _ _).mem_iff, List.mem_flatten]

/-- What a pattern resolves to is what it picks from a file list that it went into. -/
theorem resolve_of_collect (hs : s.Lists) (h : collect s patterns = .ok files)
    (hpattern : pattern ∈ patterns) : ∃ glob, Glob.compile pattern = .ok glob ∧
      s.resolve pattern = .ok (files.filter (glob.picks pattern)) := by
  obtain ⟨hascending, found, hfound, hmem⟩ := collect_eq_ok h
  obtain ⟨own, hown, hresolve⟩ := exists_of_forall₂ hfound.flip hpattern
  obtain ⟨glob, all, hglob, hall, heq⟩ := hs.resolve_eq_ok_iff.mp hresolve
  refine ⟨glob, hglob, ?_⟩
  rw [hresolve]
  congr 1
  have hordered := hs.ascending true all hall
  rw [heq]
  refine eq_of_pairwise_lt (hordered.filter _) (hascending.filter _) fun file => ?_
  rw [List.mem_filter, List.mem_filter, and_congr_left_iff]
  intro hpicks
  rw [hmem]
  constructor
  · intro hfile
    refine ⟨own, hown, ?_⟩
    rw [heq]
    exact List.mem_filter.mpr ⟨hfile, hpicks⟩
  · rintro ⟨l, hl, hfile⟩
    obtain ⟨p, -, hp⟩ := exists_of_forall₂ hfound hl
    obtain ⟨glob', all', -, hall', rfl⟩ := hs.resolve_eq_ok_iff.mp hp
    rw [hall] at hall'
    cases hall'
    exact List.mem_of_mem_filter hfile

/-- Source directories with the same file list resolve its patterns alike. -/
theorem resolve_congr (hs₁ : s₁.Lists) (hs₂ : s₂.Lists) (h₁ : collect s₁ patterns = .ok files)
    (h₂ : collect s₂ patterns = .ok files) (hpattern : pattern ∈ patterns) :
    s₂.resolve pattern = s₁.resolve pattern := by
  obtain ⟨glob, hglob, hresolve⟩ := resolve_of_collect hs₁ h₁ hpattern
  obtain ⟨glob', hglob', hresolve'⟩ := resolve_of_collect hs₂ h₂ hpattern
  rw [hglob] at hglob'
  cases hglob'
  rw [hresolve, hresolve']

end FileList

/-- A compilation asks a source directory for its name and for what the patterns of the builders over
it resolve to, and makes nothing of that but the edges of the builders. -/
theorem compile_congr_edges {d : Declarations} (hroot : s₂.root = s₁.root)
    (h : ∀ b ∈ d.sourceBuilders, (s₂.resolve b.pattern).map (b.edges s₁.root) =
      (s₁.resolve b.pattern).map (b.edges s₁.root)) : compile s₂ d = compile s₁ d := by
  have hadd : ∀ (s : Sources) (c : Compiled) (b : Builder), Compiled.addSourceBuilder s c b =
      ((s.resolve b.pattern).map (b.edges s.root)).bind fun edges =>
        edges.foldlM (Compiled.addEdge b)
          { c with
            sourcePatterns := Compiled.addPattern c.sourcePatterns b.pattern
            warnings := c.warnings ++ b.warnings } := by
    intro s c b
    rw [Compiled.addSourceBuilder]
    cases s.resolve b.pattern <;> rfl
  have hphase : ∀ c, d.sourceBuilders.foldlM (Compiled.addSourceBuilder s₂) c =
      d.sourceBuilders.foldlM (Compiled.addSourceBuilder s₁) c := by
    refine foldlM_congr fun b hb c => ?_
    rw [hadd, hadd, hroot, h b hb]
  rw [compile, compile]
  refine bind_congr fun graph => ?_
  rw [Declarations.sourceBuilders] at hphase
  rw [hphase]

theorem compile_congr {d : Declarations} (hroot : s₂.root = s₁.root)
    (h : ∀ b ∈ d.sourceBuilders, s₂.resolve b.pattern = s₁.resolve b.pattern) :
    compile s₂ d = compile s₁ d :=
  compile_congr_edges hroot fun b hb => by rw [h b hb]

/-- Trees with the same file list yield the same graph, whatever else is in them, as long as the list shows
names as they are. -/
theorem compile_eq_of_collect_eq {w₁ w₂ : Workspace} {root : String} (hdisk₁ : w₁.root.OnDisk)
    (hdisk₂ : w₂.root.OnDisk) (hkeeps₁ : w₁.KeepsNames root) (hkeeps₂ : w₂.KeepsNames root)
    {d : Declarations} {c : Compiled} {files : List String}
    (hcompile : compile (.ofWorkspace w₁ root) d = .ok c)
    (hfiles₁ : FileList.collect (.ofWorkspace w₁ root) c.sourcePatterns = .ok files)
    (hfiles₂ : FileList.collect (.ofWorkspace w₂ root) c.sourcePatterns = .ok files) :
    compile (.ofWorkspace w₂ root) d = .ok c ∧
      ∀ source o, Script.evaluate source = .ok d →
        generateFromSource (.ofWorkspace w₂ root) source o =
          generateFromSource (.ofWorkspace w₁ root) source o := by
  have hpatterns : ∀ b ∈ d.sourceBuilders, b.pattern ∈ c.sourcePatterns := by
    intro b hb
    rw [compile_sourcePatterns hcompile, List.mem_eraseDups]
    exact List.mem_map_of_mem hb
  have hsame : compile (.ofWorkspace w₂ root) d = compile (.ofWorkspace w₁ root) d := by
    refine compile_congr rfl fun b hb => ?_
    exact FileList.resolve_congr (Sources.lists_ofWorkspace hdisk₁ hkeeps₁)
      (Sources.lists_ofWorkspace hdisk₂ hkeeps₂) hfiles₁ hfiles₂ (hpatterns b hb)
  refine ⟨hsame.trans hcompile, fun source o hsource => ?_⟩
  rw [generateFromSource, generateFromSource, hsource]
  change (compile _ d >>= _) = (compile _ d >>= _)
  rw [hsame]

/-- A source directory with the given entries. -/
def sourceWorkspace (entries : List (RawPath × Node)) : Workspace :=
  ⟨.dir [("src", .dir entries)], []⟩

/-- The picture of the atlas. -/
def bareEntries : List (RawPath × Node) :=
  [("art", .dir [("hero.psd", .file .empty)])]

/-- The picture of the atlas among files that no pattern is about. One is hidden, one is what a build
made of an earlier picture. -/
def litteredEntries : List (RawPath × Node) :=
  [("art", .dir [("hero.psd", .file .empty), ("old.png", .file .empty)]),
    (".cache", .dir [("hero.psd", .file .empty)])]

theorem locate_sourceWorkspace (entries : List (RawPath × Node)) :
    (sourceWorkspace entries).locate "src" = .ok ⟨["src"], 40, Nat.le_refl 40⟩ :=
  Workspace.locate_single (by decide)

theorem isDir_sourceWorkspace (entries : List (RawPath × Node)) :
    (sourceWorkspace entries).isDir "src" = true := by
  rw [Workspace.isDir, Workspace.node, locate_sourceWorkspace]
  rfl

theorem listFiles_sourceWorkspace {entries : List (RawPath × Node)} {hidden : Bool}
    {paths : List (List RawPath)} {listing : List String}
    (hpaths : (sourceWorkspace entries).root.files hidden 40 ["src"] [["src"]] 4 entries = paths)
    (hlisting : paths.map Path.listed = listing) (hordered : listing.Pairwise (· ≤ ·)) :
    (sourceWorkspace entries).listFiles "src" hidden = .ok listing := by
  have hstem : (Path.below "src" "").utf8ByteSize = 4 := by decide
  have hat : (sourceWorkspace entries).root.at? [("src" : RawPath)] = some (.dir entries) := rfl
  rw [Workspace.listFiles_eq_ok (locate_sourceWorkspace entries) hat, hstem, hpaths, hlisting,
    List.mergeSort_of_pairwise]
  exact hordered.imp fun h => decide_eq_true h

/-- A pattern asks a source directory for one listing only. -/
theorem Sources.resolve_of_listFiles {w : Workspace} {root : String} {listing : List String}
    (h : w.listFiles root (Glob.namesHidden pattern) = .ok listing) :
    (Sources.ofWorkspace w root).resolve pattern =
      (Sources.mk root fun _ => .ok listing).resolve pattern := by
  have hfiles : (Sources.ofWorkspace w root).files (Glob.namesHidden pattern) = .ok listing := h
  rw [Sources.resolve, Sources.resolve, Sources.list, Sources.list, hfiles]
  rfl

/-- Empty files under some names. -/
def fileEntries (names : List RawPath) : List (RawPath × Node) :=
  names.map fun name => (name, .file .empty)

theorem files_fileEntries {root : Node} {budget stem : Nat} {here : Location} {above : List Location}
    {names : List RawPath} (hvisible : ∀ name ∈ names, isHidden name = false) (hidden : Bool) :
    root.files hidden budget here above stem (fileEntries names) = names.map fun name => [name] := by
  induction names with
  | nil => exact Node.files_nil
  | cons name names ih =>
      rw [List.forall_mem_cons] at hvisible
      rw [fileEntries, List.map_cons, ← fileEntries, Node.files_cons, ih hvisible.2]
      simp [hvisible.1, Node.visit, Node.Visit.paths]

theorem listFiles_bareEntries (hidden : Bool) :
    (sourceWorkspace bareEntries).listFiles "src" hidden = .ok ["art/hero.psd"] := by
  have hart : ¬ Route.maxPathBytes < 4 + "art".utf8ByteSize := by decide
  have hvisible : ∀ name ∈ ["art", "hero.psd"], Path.isHidden name = false := by decide
  have hpaths : (sourceWorkspace bareEntries).root.files hidden 40 ["src"] [["src"]] 4 bareEntries =
      ([["art", "hero.psd"]] : List (List RawPath)) := by
    simp [bareEntries, Node.files_cons, Node.files_nil, Node.visit, Node.Visit.paths, hart, hvisible]
  exact listFiles_sourceWorkspace hpaths (by decide +kernel) (by decide +kernel)

theorem resolve_bareEntries :
    (Sources.ofWorkspace (sourceWorkspace bareEntries) "src").resolve "**/*.psd" = .ok ["art/hero.psd"] := by
  rw [Sources.resolve_of_listFiles (listFiles_bareEntries _)]
  decide +kernel

theorem resolve_litteredEntries :
    (Sources.ofWorkspace (sourceWorkspace litteredEntries) "src").resolve "**/*.psd" =
      .ok ["art/hero.psd"] := by
  have hart : ¬ Route.maxPathBytes < 4 + "art".utf8ByteSize := by decide
  have hvisible : ∀ name ∈ ["art", "hero.psd", "old.png"], Path.isHidden name = false := by decide
  have hhidden : Path.isHidden ".cache" = true := by decide
  have hasks : Glob.namesHidden "**/*.psd" = false := by decide +kernel
  have hpaths : (sourceWorkspace litteredEntries).root.files false 40 ["src"] [["src"]] 4 litteredEntries =
      ([["art", "hero.psd"], ["art", "old.png"]] : List (List RawPath)) := by
    simp [litteredEntries, Node.files_cons, Node.files_nil, Node.visit, Node.Visit.paths, hart, hvisible,
      hhidden]
  have hlisting : ([["art", "hero.psd"], ["art", "old.png"]] : List (List RawPath)).map Path.listed =
      ["art/hero.psd", "art/old.png"] := by decide +kernel
  rw [Sources.resolve_of_listFiles (hasks ▸ listFiles_sourceWorkspace hpaths hlisting (by decide +kernel))]
  decide +kernel

theorem compile_eq_of_collect_eq_littered :
    compile (.ofWorkspace (sourceWorkspace litteredEntries) "src") atlasDeclarations = .ok atlasCompiled := by
  have hcompile : compile (.ofWorkspace (sourceWorkspace bareEntries) "src") atlasDeclarations =
      .ok atlasCompiled := by
    have hatlas : compile atlasSources atlasDeclarations = .ok atlasCompiled := by decide +kernel
    rw [← hatlas]
    refine compile_congr rfl fun b hb => ?_
    have hpattern : b.pattern = "**/*.psd" := by
      revert b
      decide
    rw [hpattern, resolve_bareEntries]
    decide +kernel
  have hcollect : ∀ w : Workspace,
      (Sources.ofWorkspace w "src").resolve "**/*.psd" = .ok ["art/hero.psd"] →
      FileList.collect (.ofWorkspace w "src") atlasCompiled.sourcePatterns = .ok ["art/hero.psd"] := by
    intro w hresolve
    simp [FileList.collect, atlasCompiled, hresolve, FileList.dropRepeats, bind, Except.bind, pure,
      Except.pure]
  have hnames : ∀ name ∈ [("src" : RawPath), "art", "hero.psd", "old.png", ".cache"], IsEntryName name := by
    decide
  have hkept : ∀ name ∈ [("src" : RawPath), "art", "hero.psd", "old.png", ".cache"], name.IsKept := by
    simp
  refine (compile_eq_of_collect_eq ?_ ?_ ?_ ?_ hcompile (hcollect _ resolve_bareEntries)
    (hcollect _ resolve_litteredEntries)).1
  · simp_all [Node.OnDisk, sourceWorkspace, bareEntries]
  · simp_all [Node.OnDisk, sourceWorkspace, litteredEntries]
  · exact .of_each (by simp_all [sourceWorkspace, bareEntries]) "src"
  · exact .of_each (by simp_all [sourceWorkspace, litteredEntries]) "src"

/-- From one tree to another, both as disks hold them, the graph changes and the file list does not. -/
def FileList.Misses (w₁ w₂ : Workspace) (root : String) (d : Declarations) : Prop :=
  w₁.root.OnDisk ∧ w₂.root.OnDisk ∧ ∃ c files, compile (.ofWorkspace w₁ root) d = .ok c ∧
    collect (.ofWorkspace w₁ root) c.sourcePatterns = .ok files ∧
    collect (.ofWorkspace w₂ root) c.sourcePatterns = .ok files ∧
    compile (.ofWorkspace w₂ root) d ≠ .ok c

/-- All files in one heap. -/
def heapDeclarations : Declarations where
  bundles := [{ pattern := "**/*", targets := ["heap"], rule := some "phony" }]

def heapCompiled (file : String) : Compiled where
  graph :=
    { edges := [{ rule := "phony", outputs := ["heap"], inputs := [file] }]
      producers := [("heap", 0)] }
  outputs := ["heap"]
  sourcePatterns := ["**/*"]

/-- A file that is listed once more is no new file for the list. -/
theorem misses_heap {w₁ w₂ : Workspace} {file : String} (hdisk₁ : w₁.root.OnDisk) (hdisk₂ : w₂.root.OnDisk)
    (hlist₁ : ∀ hidden, w₁.listFiles "src" hidden = .ok [file])
    (hlist₂ : ∀ hidden, w₂.listFiles "src" hidden = .ok [file, file])
    (hcompile : compile ⟨"src", fun _ => .ok [file]⟩ heapDeclarations = .ok (heapCompiled ("src/" ++ file)))
    (hmore : compile ⟨"src", fun _ => .ok [file, file]⟩ heapDeclarations ≠ .ok (heapCompiled ("src/" ++ file)))
    (hresolve : ∀ files ∈ [[file], [file, file]],
      (Sources.mk "src" fun _ => .ok files).resolve "**/*" = .ok files) :
    FileList.Misses w₁ w₂ "src" heapDeclarations := by
  have hcollect : ∀ files ∈ [[file], [file, file]],
      FileList.collect ⟨"src", fun _ => .ok files⟩ ["**/*"] = .ok [file] := by
    intro files hfiles
    have hordered : files.Pairwise fun a b => decide (a ≤ b) = true := by
      revert files
      simp
    simp only [FileList.collect, List.mapM_cons, List.mapM_nil, hresolve files hfiles, bind, Except.bind, pure,
      Except.pure, List.flatten_singleton, List.mergeSort_of_pairwise hordered]
    revert files
    simp [FileList.dropRepeats]
  have hsources₁ : Sources.ofWorkspace w₁ "src" = ⟨"src", fun _ => .ok [file]⟩ :=
    congrArg (Sources.mk "src") (funext hlist₁)
  have hsources₂ : Sources.ofWorkspace w₂ "src" = ⟨"src", fun _ => .ok [file, file]⟩ :=
    congrArg (Sources.mk "src") (funext hlist₂)
  refine ⟨hdisk₁, hdisk₂, heapCompiled ("src/" ++ file), [file], ?_, ?_, ?_, ?_⟩
  · rw [hsources₁, hcompile]
  · rw [hsources₁]
    exact hcollect [file] (by simp)
  · rw [hsources₂]
    exact hcollect [file, file] (by simp)
  · rwa [hsources₂]

/-- Two names that are no texts and hold no backslash. -/
def strayNames : List RawPath :=
  [⟨[0xFE]⟩, ⟨[0xFF]⟩]

theorem listFiles_strayNames (hidden : Bool) :
    (sourceWorkspace (fileEntries (strayNames.take 1))).listFiles "src" hidden = .ok ["\uFFFD"] ∧
      (sourceWorkspace (fileEntries strayNames)).listFiles "src" hidden = .ok ["\uFFFD", "\uFFFD"] := by
  have hvisible : ∀ name ∈ strayNames, isHidden name = false := by decide +kernel
  have hone : ∀ name ∈ strayNames.take 1, isHidden name = false :=
    fun name hname => hvisible name (List.mem_of_mem_take hname)
  exact ⟨listFiles_sourceWorkspace (files_fileEntries hone hidden) (by decide +kernel) (by decide +kernel),
    listFiles_sourceWorkspace (files_fileEntries hvisible hidden) (by decide +kernel) (by decide +kernel)⟩

/-- A file in a directory, and a link that is named like the path of the file but for the slash. -/
def namesakeEntries : List (RawPath × Node) :=
  [("c", .dir [("d", .file .empty)]), ("c\\d", .link "c/d")]

theorem listFiles_namesakeEntries (hidden : Bool) :
    (sourceWorkspace (namesakeEntries.take 1)).listFiles "src" hidden = .ok ["c/d"] ∧
      (sourceWorkspace namesakeEntries).listFiles "src" hidden = .ok ["c/d", "c/d"] := by
  have hvisible : ∀ name ∈ ["c", "d", "c\\d"], Path.isHidden name = false := by decide
  have hshort : ¬ Route.maxPathBytes < 4 + "c".utf8ByteSize ∧ ¬ Route.maxPathBytes < 4 + "c\\d".utf8ByteSize ∧
     ¬ Route.maxNameBytes < "c".utf8ByteSize ∧ ¬ Route.maxNameBytes < "d".utf8ByteSize := by decide
  have hroute : Route.parse "c/d" = .ok ⟨false, ["c", "d"], false⟩ := rfl
  have hpaths : (sourceWorkspace (namesakeEntries.take 1)).root.files hidden 40 ["src"] [["src"]] 4
      (namesakeEntries.take 1) = ([["c", "d"]] : List (List RawPath)) := by
    simp [namesakeEntries, Node.files_cons, Node.files_nil, Node.visit, Node.Visit.paths, hshort, hvisible]
  have hpaths' : (sourceWorkspace namesakeEntries).root.files hidden 40 ["src"] [["src"]] 4
      namesakeEntries = ([["c", "d"], ["c\\d"]] : List (List RawPath)) := by
    simp [namesakeEntries, Node.files_cons, Node.files_nil, Node.visit, Node.Visit.paths, hshort, hvisible,
      Node.files.linked, hroute, Route.start, Route.steps, Node.follow, Node.at?, sourceWorkspace]
  exact ⟨listFiles_sourceWorkspace hpaths (by decide +kernel) (by decide +kernel),
    listFiles_sourceWorkspace hpaths' (by decide +kernel) (by decide +kernel)⟩

/-- A file list tells two names that are no texts as little from one of them as a link from a file whose
path its name shows as. -/
theorem misses_lost_names : (∀ name ∈ strayNames, '\\' ∉ name.shown.toList) ∧
    FileList.Misses (sourceWorkspace (fileEntries (strayNames.take 1)))
      (sourceWorkspace (fileEntries strayNames)) "src" heapDeclarations ∧
    FileList.Misses (sourceWorkspace (namesakeEntries.take 1)) (sourceWorkspace namesakeEntries) "src"
      heapDeclarations := by
  have hnames : ∀ name ∈ [("src" : RawPath), "c", "d", "c\\d"] ++ strayNames, IsEntryName name := by
    decide +kernel
  have hdistinct : strayNames.Nodup := by decide +kernel
  refine ⟨by decide +kernel, ?_, ?_⟩
  · refine misses_heap ?_ ?_ (fun hidden => (listFiles_strayNames hidden).1)
      (fun hidden => (listFiles_strayNames hidden).2) ?_ ?_ ?_
    · simp_all [Node.OnDisk, sourceWorkspace, fileEntries, strayNames]
    · simp_all [Node.OnDisk, sourceWorkspace, fileEntries, strayNames]
    · decide +kernel
    · decide +kernel
    · decide +kernel
  · refine misses_heap ?_ ?_ (fun hidden => (listFiles_namesakeEntries hidden).1)
      (fun hidden => (listFiles_namesakeEntries hidden).2) ?_ ?_ ?_
    · simp_all [Node.OnDisk, sourceWorkspace, namesakeEntries]
    · simp_all [Node.OnDisk, sourceWorkspace, namesakeEntries]
    · decide +kernel
    · decide +kernel
    · decide +kernel

end AssetPipeline
