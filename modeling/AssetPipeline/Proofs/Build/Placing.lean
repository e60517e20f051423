import AssetPipeline.Proofs.Build.Growing
import AssetPipeline.Proofs.Build.Inputs
import AssetPipeline.Proofs.Build.Phases
import AssetPipeline.Proofs.Path.Addresses

/-! Where the outputs of singles lie. An output is named for the stem of the matched file and put into its
directory, so two files that make the same output of one single differ in their last extension only. The
directory is found in the text of the matched path; where that ends in no name, or starts from the top with
nothing but a name, the output lies elsewhere. -/

namespace AssetPipeline

namespace Single

variable {s : Single} {target stem stem' : List Char} {root : String}

/-! ### Targets filled in -/

/-- A target is read token by token where there are tokens, and elsewhere character by character. -/
theorem target_induction {motive : List Char → Prop} (nil : motive [])
    (token : ∀ target, motive target → motive (stemToken ++ target))
    (char : ∀ c target, ¬ stemToken <+: c :: target → motive target → motive (c :: target))
    (target : List Char) : motive target := by
  have hfilled := filled_expand [] target
  generalize expand [] target = name at hfilled
  induction hfilled with
  | nil => exact nil
  | token _ ih => exact token _ ih
  | char hc _ ih => exact char _ _ hc ih

/-- A filled-in target has the characters of the target and the stem once for each token in it. -/
theorem exists_length_expand (target : List Char) :
    ∃ kept tokens, ∀ stem, (expand stem target).length = kept + tokens * stem.length := by
  induction target using target_induction with
  | nil => exact ⟨0, 0, fun stem => by simp [expand]⟩
  | token target ih =>
      obtain ⟨kept, tokens, hlength⟩ := ih
      refine ⟨kept, tokens + 1, fun stem => ?_⟩
      rw [expand_stemToken, List.length_append, hlength, Nat.add_mul]
      omega
  | char c target hc ih =>
      obtain ⟨kept, tokens, hlength⟩ := ih
      refine ⟨kept + 1, tokens, fun stem => ?_⟩
      rw [expand_char stem hc, List.length_cons, hlength]
      omega

/-- A target with a token, once it is filled in, tells with what. -/
theorem eq_of_expand_eq (htoken : stemToken <:+: target) (h : expand stem target = expand stem' target) :
    stem = stem' := by
  induction target using target_induction with
  | nil => exact absurd (List.eq_nil_of_infix_nil htoken) (by decide)
  | token target _ =>
      rw [expand_stemToken, expand_stemToken] at h
      obtain ⟨kept, tokens, hrest⟩ := exists_length_expand target
      have htotal := congrArg List.length h
      rw [List.length_append, List.length_append, hrest, hrest] at htotal
      -- What stands behind the token is no longer for a shorter stem.
      have hlength : stem.length = stem'.length := by
        rcases Nat.lt_trichotomy stem.length stem'.length with hlt | heq | hlt
        · have := Nat.mul_le_mul_left tokens hlt.le
          omega
        · exact heq
        · have := Nat.mul_le_mul_left tokens hlt.le
          omega
      exact (List.append_inj h hlength).1
  | char c target hc ih =>
      rw [expand_char _ hc, expand_char _ hc] at h
      exact ih ((List.infix_cons_iff.mp htoken).resolve_left hc) (List.cons.inj h).2

/-- A stem without slashes leaves the number of slashes in a target as it is. -/
theorem count_slash_expand (hstem : '/' ∉ stem) (target : List Char) :
    (expand stem target).count '/' = target.count '/' := by
  induction target using target_induction with
  | nil => rw [expand]
  | token target ih =>
      have htoken : stemToken.count '/' = 0 := by decide
      rw [expand_stemToken, List.count_append, List.count_append, ih, htoken, List.count_eq_zero_of_not_mem hstem]
  | char c target hc ih => rw [expand_char _ hc, List.count_cons, List.count_cons, ih]

/-! ### Outputs that coincide -/

/-- The name that a filled-in target gives to the output for a file. -/
def nameFor (target : List Char) (file : String) : String :=
  String.ofList (expand (Path.fileStem file).toList target)

theorem edge?_eq {target : String} (htarget : s.target = some target) (root file : String) :
    s.edge? root file = some
      { rule := s.rule.getD ""
        outputs := [Path.joinRoot (Path.parentDir file) (nameFor target.toList file)]
        inputs := [Path.joinRoot root file]
        bindings := s.assignments.entries } := by
  rw [edge?, outputName, htarget]
  rfl

theorem length_segments_nameFor (target : List Char) (file : String) :
    (Path.segments (nameFor target file)).length = target.count '/' + 1 := by
  rw [Path.length_segments, nameFor, String.toList_ofList,
    count_slash_expand (Path.slash_notMem_fileStem file)]

theorem joinRoot_nameFor_eq_iff {f g : String} (htoken : stemToken <:+: target) (hf : Path.IsOrdinary f)
    (hg : Path.IsOrdinary g) :
    Path.joinRoot (Path.parentDir f) (nameFor target f) = Path.joinRoot (Path.parentDir g) (nameFor target g) ↔
      Path.parentDir f = Path.parentDir g ∧ Path.fileStem f = Path.fileStem g := by
  constructor
  · intro h
    have hsegments := congrArg Path.segments h
    rw [hf.segments_joinRoot, hg.segments_joinRoot] at hsegments
    have hlength : (Path.segments (nameFor target f)).length = (Path.segments (nameFor target g)).length := by
      rw [length_segments_nameFor, length_segments_nameFor]
    obtain ⟨hdirs, hnames⟩ := List.append_inj' hsegments hlength
    refine ⟨?_, ?_⟩
    · rw [Path.parentDir_eq_intercalate, Path.parentDir_eq_intercalate, hdirs]
    · have hname := congrArg String.toList (Path.segments_injective hnames)
      rw [nameFor, nameFor, String.toList_ofList, String.toList_ofList] at hname
      exact String.toList_injective (eq_of_expand_eq htoken hname)
  · rintro ⟨hdir, hstem⟩
    rw [nameFor, nameFor, hdir, hstem]

/-- The edges for two ordinary paths, and when their outputs coincide. -/
theorem exists_edges_of_isOrdinary {target : String} (htarget : s.target = some target)
    (htoken : stemToken <:+: target.toList) (root : String) {f g : String} (hf : Path.IsOrdinary f)
    (hg : Path.IsOrdinary g) : ∃ e e', s.edge? root f = some e ∧ s.edge? root g = some e' ∧
      (e.outputs = e'.outputs ↔ Path.parentDir f = Path.parentDir g ∧ Path.fileStem f = Path.fileStem g) ∧
      ((∃ path ∈ e.outputs, path ∈ e'.outputs) → Path.AlikeBeforeExtension f g) := by
  refine ⟨_, _, edge?_eq htarget root f, edge?_eq htarget root g, ?_, ?_⟩
  · rw [← joinRoot_nameFor_eq_iff htoken hf hg]
    exact ⟨fun h => (List.cons.inj h).1, fun h => congrArg (fun path => [path]) h⟩
  · rintro ⟨path, hpath, hpath'⟩
    have hsame := (List.mem_singleton.mp hpath).symm.trans (List.mem_singleton.mp hpath')
    obtain ⟨hdir, hstem⟩ := (joinRoot_nameFor_eq_iff htoken hf hg).mp hsame
    exact hf.alikeBeforeExtension hg hdir hstem

end Single

/-- Where no name shows a backslash, the files that a pattern resolves to are ordinary paths. -/
theorem Sources.isOrdinary_of_resolve {w : Workspace} {root pattern : String} {files : List String}
    (hdisk : w.root.OnDisk)
    (hplain : ∀ names, w.ReachesFile root names → ∀ name ∈ names, '\\' ∉ name.shown.toList)
    (h : (Sources.ofWorkspace w root).resolve pattern = .ok files) : ∀ file ∈ files, Path.IsOrdinary file := by
  obtain ⟨hidden, all, hall, hsublist⟩ := Sources.exists_list_of_resolve h
  have hdir := Workspace.isDir_of_listFiles (mapError_eq_ok_iff.mp hall)
  obtain ⟨paths, hpaths, -, hmem⟩ := Workspace.exists_paths hdisk hdir hidden
  intro file hfile
  have hlisted := hsublist.subset hfile
  rw [Except.ok.inj ((mapError_eq_ok_iff.mp hall).symm.trans hpaths)] at hlisted
  obtain ⟨names, hnames, rfl⟩ := mem_mergeSort_map_iff.mp hlisted
  have hreaches := ((hmem names).mp hnames).1
  rw [Path.listed_eq (hplain names hreaches)]
  exact hreaches.isOrdinary hdisk

/-- A single with a token in its target makes the same output of two ordinary paths exactly if these have
one directory and one stem, and then they differ in their last extension only. The files of a source
directory are different ordinary paths where names are listed as they are, so it makes the same output only
of files that differ in that. -/
theorem single_outputs_eq_iff {s : Single} {target : String} (htarget : s.target = some target)
    (htoken : Single.stemToken <:+: target.toList) :
    (∀ root f g, Path.IsOrdinary f → Path.IsOrdinary g → ∃ e e', s.edge? root f = some e ∧
      s.edge? root g = some e' ∧
      (e.outputs = e'.outputs ↔ Path.parentDir f = Path.parentDir g ∧ Path.fileStem f = Path.fileStem g) ∧
      ((∃ path ∈ e.outputs, path ∈ e'.outputs) → Path.AlikeBeforeExtension f g)) ∧
    ∀ w root files, w.root.OnDisk → w.KeepsNames root →
      (Sources.ofWorkspace w root).resolve s.pattern = .ok files →
      files.Nodup ∧ ∀ f ∈ files, ∀ g ∈ files, ∀ e e', s.edge? root f = some e → s.edge? root g = some e' →
        (∃ path ∈ e.outputs, path ∈ e'.outputs) → Path.AlikeBeforeExtension f g := by
  refine ⟨fun root f g => Single.exists_edges_of_isOrdinary htarget htoken root, ?_⟩
  intro w root files hdisk hkeeps hresolve
  obtain ⟨hidden, all, hall, hsublist⟩ := Sources.exists_list_of_resolve hresolve
  have hdir := Workspace.isDir_of_listFiles (mapError_eq_ok_iff.mp hall)
  obtain ⟨all', hall', hnodup, -⟩ := hkeeps.nodup_and_isFile hdisk hdir hidden
  cases hall.symm.trans hall'
  have hordinary := Sources.isOrdinary_of_resolve hdisk
    (fun names hreaches name hname => (hkeeps names hreaches name hname).backslash_notMem) hresolve
  refine ⟨hnodup.sublist hsublist, fun f hf g hg e e' he he' hshared => ?_⟩
  obtain ⟨_, _, hedge, hedge', -, halike⟩ :=
    Single.exists_edges_of_isOrdinary htarget htoken root (hordinary f hf) (hordinary g hg)
  cases hedge.symm.trans he
  cases hedge'.symm.trans he'
  exact halike hshared

theorem single_outputs_eq_iff_sizes : ∃ e e',
    ({ pattern := "**/*", target := some "$filename/$filename@2x.png" } : Single).edge? "src" "art/hero.psd" =
      some e ∧
    ({ pattern := "**/*", target := some "$filename/$filename@2x.png" } : Single).edge? "src" "art/hero.tif" =
      some e' ∧
    e.outputs = e'.outputs := by
  obtain ⟨hiff, -⟩ := single_outputs_eq_iff
    (s := { pattern := "**/*", target := some "$filename/$filename@2x.png" }) rfl (by decide +kernel)
  have hordinary : ∀ file ∈ ["art/hero.psd", "art/hero.tif"], Path.IsOrdinary file := by
    unfold Path.IsOrdinary
    decide +kernel
  obtain ⟨e, e', he, he', houtputs, -⟩ := hiff "src" "art/hero.psd" "art/hero.tif"
    (hordinary _ (by decide)) (hordinary _ (by decide))
  exact ⟨e, e', he, he', houtputs.mpr (by decide +kernel)⟩

/-- One output for every file, named for its stem. -/
def stemDeclarations : Declarations where
  rules := [{ name := "convert", command := some "tool $in $out" }]
  singles := [{ pattern := "**/*", target := some "$filename.x", rule := some "convert" }]

/-- A file in a directory and one whose name is the path of the first but for a backslash differ in more than
an extension, and a single collides with itself on them. -/
theorem single_collides : (sourceWorkspace backslashEntries.tail).root.OnDisk ∧
    (sourceWorkspace backslashEntries.tail).isFile "src/c/d" = true ∧
    (sourceWorkspace backslashEntries.tail).isFile "src/c\\d" = true ∧
    ¬ Path.AlikeBeforeExtension "c/d" "c\\d" ∧
    compile (.ofWorkspace (sourceWorkspace backslashEntries.tail) "src") stemDeclarations =
      .error (.edge "single" "**/*" (.duplicateOutput "c/d.x" "convert" "convert")) := by
  have hsources : Sources.ofWorkspace (sourceWorkspace backslashEntries.tail) "src" =
      ⟨"src", fun _ => .ok ["c/d", "c/d"]⟩ :=
    congrArg (Sources.mk "src") (funext fun hidden => (listFiles_backslashEntries hidden).2)
  have hdir : Route.parse "src/c/d" = .ok ⟨false, ["src", "c", "d"], false⟩ := rfl
  have hname : Route.parse "src/c\\d" = .ok ⟨false, ["src", "c\\d"], false⟩ := rfl
  have hlength : ∀ name ∈ ["src", "c", "d", "c\\d"], ¬ Route.maxNameBytes < name.utf8ByteSize := by decide
  refine ⟨onDisk_backslashEntries.2, ?_, ?_, ?_, ?_⟩
  · simp [Workspace.isFile, Workspace.node, Workspace.locate, hdir, sourceWorkspace, backslashEntries, bind,
      Except.bind, Route.steps, Route.start, Node.follow, Node.at?, Workspace.maxLinks, hlength, pure, Except.pure]
  · simp [Workspace.isFile, Workspace.node, Workspace.locate, hname, sourceWorkspace, backslashEntries, bind,
      Except.bind, Route.steps, Route.start, Node.follow, Node.at?, Node.lookup_cons_ite, Workspace.maxLinks,
      hlength, pure, Except.pure]
  · exact fun h => absurd (h.eq_of_notMem (by decide) (by decide)) (by decide)
  · rw [hsources]
    decide +kernel

/-! ### Outputs beside their files -/

/-- The files that a builder is given, with the root that they lie below: those that its pattern resolves
to, or those of the first phase's outputs that match it. -/
inductive Declarations.Matches (d : Declarations) (sources : Sources) (made : List String) :
    Builder → (root file : String) → Prop where
  | source {b : Builder} {files : List String} {file : String} (hb : b ∈ d.sourceBuilders)
    (hfiles : sources.resolve b.pattern = .ok files) (hfile : file ∈ files) :
    Matches d sources made b sources.root file
  | build {b : Builder} {file : String} (hb : b ∈ d.buildBuilders) (hfile : file ∈ made)
    (hmatch : Glob.matches file b.pattern = .ok true) : Matches d sources made b "." file

section Placed

variable {d : Declarations} {sources : Sources} {first second : List (List Edge)} {s : Single}
  {root file : String} {e : Edge}

/-- For each file that a single is given there is an edge. -/
theorem Declarations.ExpandsTo.exists_of_matches (h : d.ExpandsTo sources first second)
    (hmatch : d.Matches sources (first.flatten.flatMap (·.outputs)) (.single s) root file) :
    ∃ e ∈ first.flatten ++ second.flatten, s.Makes root file e := by
  have hpick : ∀ {root files edges}, (Builder.single s).Makes root files edges → file ∈ files →
      ∃ e ∈ edges, s.Makes root file e := by
    intro root files edges hmakes hfile
    cases hmakes with
    | single hmakes => exact exists_of_forall₂ hmakes.flip hfile
  cases hmatch with
  | source hb hfiles hfile =>
      obtain ⟨edges, hedges, files', hfiles', hmakes⟩ := exists_of_forall₂ h.source.flip hb
      cases hfiles.symm.trans hfiles'
      obtain ⟨e, he, hmakes⟩ := hpick hmakes hfile
      exact ⟨e, List.mem_append_left _ (List.mem_flatten.mpr ⟨edges, hedges, he⟩), hmakes⟩
  | build hb hfile hmatch =>
      obtain ⟨edges, hedges, files, ⟨keeps, hkeeps, rfl⟩, hmakes⟩ := exists_of_forall₂ h.build.flip hb
      have hkept : keeps file = true := Except.ok.inj ((hkeeps file hfile).symm.trans hmatch)
      obtain ⟨e, he, hmakes⟩ := hpick hmakes (List.mem_filter.mpr ⟨hfile, hkept⟩)
      exact ⟨e, List.mem_append_right _ (List.mem_flatten.mpr ⟨edges, hedges, he⟩), hmakes⟩

/-- The output for a file lies below the directory of the file exactly if the path of the file ends in the
name of what it leads to. -/
theorem Single.Makes.address_output_iff (h : s.Makes root file e) :
    ∃ name output, s.outputName (Path.fileStem file) = some name ∧ e.outputs = [output] ∧
      (name.toList.head? ≠ some '/' →
        (Path.address output = (Path.address file).parent.below (Path.steps name) ↔ Path.NamesEntry file)) := by
  obtain ⟨rule, target, name, -, htarget, hname, rfl⟩ := h
  refine ⟨String.ofList name, _, ?_, rfl, fun hhead => ?_⟩
  · rw [Single.outputName, htarget, Single.filled_iff.mp hname]
    rfl
  · rw [Path.address_joinRoot hhead, Path.Address.below_left_inj]
    exact Path.address_parentDir_iff file

end Placed

/-- For every file that a single is given there is an edge, and its output lies in the directory of that
file exactly if the path of the file ends in the name of what it leads to and is no bare name at the top.
Source files have such paths where no name shows a backslash. -/
theorem single_outputs_placed {sources : Sources} {d : Declarations} {c : Compiled}
    (h : compile sources d = .ok c) : ∃ mid, compile sources d.overSources = .ok mid ∧
      (∀ s root file, d.Matches sources mid.outputs (.single s) root file →
        ∃ e ∈ c.graph.edges, s.Makes root file e ∧
          ∃ name output, s.outputName (Path.fileStem file) = some name ∧ e.outputs = [output] ∧
            (name.toList.head? ≠ some '/' →
              (Path.address output = (Path.address file).parent.below (Path.steps name) ↔
                Path.NamesEntry file))) ∧
      ∀ w root, sources = .ofWorkspace w root → w.root.OnDisk →
        (∀ names, w.ReachesFile root names → ∀ name ∈ names, '\\' ∉ name.shown.toList) →
        ∀ b files, b ∈ d.sourceBuilders → sources.resolve b.pattern = .ok files →
          ∀ file ∈ files, Path.NamesEntry file := by
  obtain ⟨mid, first, second, hmid, hexpands, hmade, hedges⟩ := exists_compile_overSources h
  refine ⟨mid, hmid, fun s root file hmatch => ?_, ?_⟩
  · rw [hmade] at hmatch
    obtain ⟨e, he, hmakes⟩ := hexpands.exists_of_matches hmatch
    rw [← hedges] at he
    exact ⟨e, he, hmakes, hmakes.address_output_iff⟩
  · rintro w root rfl hdisk hplain b files - hfiles file hfile
    exact (Sources.isOrdinary_of_resolve hdisk hplain hfiles file hfile).namesEntry

def previewSingle : Single where
  pattern := "art/*.png"
  buildRelative := true
  target := some "small/$filename.webp"
  rule := some "convert"

/-- A single over the source directory, and one that takes in what it makes. -/
def previewDeclarations : Declarations where
  rules := [{ name := "convert", command := some "tool $in $out" }]
  singles := [{ pattern := "**/*.psd", target := some "$filename.png", rule := some "convert" }, previewSingle]

theorem single_outputs_placed_preview : ∃ c, compile atlasSources previewDeclarations = .ok c ∧
    ∃ e ∈ c.graph.edges, ∃ output, e.outputs = [output] ∧
      Path.address output = (Path.address "art/hero.png").parent.below ["small", "hero.webp"] := by
  have hcompile : ((compile atlasSources previewDeclarations).toOption.map (·.outputs)) =
      some ["art/hero.png", "art/small/hero.webp"] := by decide +kernel
  obtain ⟨c, hc, -⟩ := exists_ok_of_toOption_map hcompile
  obtain ⟨mid, hmid, hplaced, -⟩ := single_outputs_placed hc
  have hmade : ((compile atlasSources previewDeclarations.overSources).toOption.map (·.outputs)) =
      some ["art/hero.png"] := by decide +kernel
  obtain ⟨mid', hmid', hmade⟩ := exists_ok_of_toOption_map hmade
  cases hmid.symm.trans hmid'
  have hbuilder : .single previewSingle ∈ previewDeclarations.buildBuilders := by decide
  have hmatch : Glob.matches "art/hero.png" "art/*.png" = .ok true := by decide +kernel
  have hfile : "art/hero.png" ∈ mid.outputs := by
    rw [hmade]
    exact List.mem_cons_self
  obtain ⟨e, he, -, name, output, hname, houtput, hiff⟩ :=
    hplaced previewSingle "." "art/hero.png" (.build hbuilder hfile hmatch)
  have hfilled : previewSingle.outputName (Path.fileStem "art/hero.png") = some "small/hero.webp" := by
    decide +kernel
  cases hname.symm.trans hfilled
  have hentry : Path.NamesEntry "art/hero.png" := by
    unfold Path.NamesEntry
    decide +kernel
  have hsteps : Path.steps "small/hero.webp" = ["small", "hero.webp"] := by decide +kernel
  refine ⟨c, hc, e, he, output, houtput, ?_⟩
  rw [(hiff (by decide)).mpr hentry, hsteps]

/-- One picture, in no directory. -/
def topSources : Sources := ⟨"src", fun _ => .ok ["hero.psd"]⟩

/-- An index made of an output at the top of the file system. -/
def topDeclarations : Declarations where
  rules := [{ name := "convert", command := some "tool $in $out" }]
  singles := [{ pattern := "**/*.psd", target := some "/list", rule := some "convert" },
              { pattern := "/*", buildRelative := true, target := some "index", rule := some "convert" }]

def topCompiled : Compiled where
  graph :=
    { rules := [{ name := "convert", command := "tool $in $out" }]
      edges := [{ rule := "convert", outputs := ["/list"], inputs := ["src/hero.psd"] },
                { rule := "convert", outputs := ["index"], inputs := ["/list"] }]
      producers := [("index", 1), ("/list", 0)] }
  outputs := ["/list", "index"]
  sourcePatterns := ["**/*.psd"]

/-- The directory part of a bare name at the top is empty, so what is made of it lies in the directory of
the build file and not at the top. -/
theorem single_output_leaves_top : compile topSources topDeclarations = .ok topCompiled ∧
    { rule := "convert", outputs := ["index"], inputs := ["/list"] } ∈ topCompiled.graph.edges ∧
    Path.address "index" ≠ (Path.address "/list").parent.below (Path.steps "index") := by
  have hcompile : compile topSources topDeclarations = .ok topCompiled := by decide +kernel
  exact ⟨hcompile, List.mem_cons_of_mem _ List.mem_cons_self, by decide +kernel⟩

end AssetPipeline
