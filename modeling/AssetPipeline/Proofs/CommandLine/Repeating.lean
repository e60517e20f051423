import AssetPipeline.Proofs.Build.Growing
import AssetPipeline.Proofs.Build.Misreading
import AssetPipeline.Proofs.CommandLine.Operands
import AssetPipeline.Proofs.Files.Writing
import AssetPipeline.CommandLine.Run

/-! Generating twice. The build file lies in the tree that it is generated from, so a second run may read
what the first has written: as its settings, as its description, or as one more source file. Where it does
not, it writes the same bytes to the same place. -/

namespace AssetPipeline

namespace Workspace

variable {w w' : Workspace} {path other : String} {place : Location} {content : ByteArray} {text : String}

theorem Writes.readText_eq (h : w.Writes w' place content) (hother : w'.placeOf other ≠ some place)
    {bytes : ByteArray} (hread : w.readBytes other = .ok bytes) : w'.readText other = w.readText other := by
  rw [readText, readText, hread, (h.readBytes_iff hother).mpr hread]

end Workspace

namespace CommandLine

variable {program srcPath path text : String} {w w' : Workspace} {place : Location} {o : RegenOptions}
  {d : Declarations} {source : String}

/-- The options of a generation. -/
def options (program : String) (w : Workspace) (srcPath : String) : Except Failure RegenOptions := do
  let srcRoot := Path.cleanRoot srcPath
  let loaded ← loadSettings w srcRoot
  return loaded.settings.regenOptions srcRoot program
    (loaded.path.map fun _ => Path.joinRoot srcRoot settingsFileName)

theorem buildFile_eq_ok_iff : buildFile program w srcPath = .ok (path, text) ↔
    ∃ o c, options program w srcPath = .ok o ∧ generate w o = .ok c ∧ o.graphFile = path ∧
      c.graph.render = text := by
  have hbuild : buildFile program w srcPath = (options program w srcPath).bind fun o =>
      ((generate w o).mapError .build).bind fun c => .ok (o.graphFile, c.graph.render) := by
    rw [buildFile, options]
    cases loadSettings w (Path.cleanRoot srcPath) <;> rfl
  rw [hbuild]
  constructor
  · intro h
    obtain ⟨o, ho, h⟩ := bind_eq_ok_iff.mp h
    obtain ⟨c, hc, h⟩ := bind_eq_ok_iff.mp h
    cases h
    exact ⟨o, c, ho, mapError_eq_ok_iff.mp hc, rfl, rfl⟩
  · rintro ⟨o, c, ho, hc, rfl, rfl⟩
    rw [ho]
    change ((generate w o).mapError Failure.build).bind _ = _
    rw [hc]
    rfl

theorem srcRoot_of_options (h : options program w srcPath = .ok o) : o.srcRoot = Path.cleanRoot srcPath := by
  obtain ⟨loaded, -, h⟩ := bind_eq_ok_iff.mp h
  cases h
  rfl

/-- What a generation has read is still the same when its build file has been written. -/
structure InputKept (before after : Workspace) (o : RegenOptions) (d : Declarations) : Prop where
  /-- The build file is not what is read as settings. -/
  settings_apart : after.placeOf (Path.below o.srcRoot settingsFileName) ≠ after.placeOf o.graphFile
  /-- It is not the description. -/
  script_apart : after.placeOf o.scriptPath ≠ after.placeOf o.graphFile
  /-- No builder with targets finds a file where none was found before. -/
  unmatched : ∀ b ∈ d.sourceBuilders, b.targets ≠ [] → ∀ names, after.ReachesFile o.srcRoot names →
    ¬ before.ReachesFile o.srcRoot names → ¬ Glob.Finds b.pattern names

section Written

variable {c : Compiled} (hwrites : w.Writes w' place c.graph.render.toUTF8)
include hwrites

/-! ### What the build file is not -/

theorem options_eq (hapart : w'.placeOf (Path.below (Path.cleanRoot srcPath) settingsFileName) ≠ some place) :
    options program w' srcPath = options program w srcPath := by
  have hfile : w'.isFile (Path.below (Path.cleanRoot srcPath) settingsFileName) =
      w.isFile (Path.below (Path.cleanRoot srcPath) settingsFileName) := by
    rw [Bool.eq_iff_iff, Workspace.isFile_iff_readBytes, Workspace.isFile_iff_readBytes]
    exact exists_congr fun bytes => hwrites.readBytes_iff hapart
  have hload : loadSettings w' (Path.cleanRoot srcPath) = loadSettings w (Path.cleanRoot srcPath) := by
    rw [loadSettings, loadSettings, hfile]
    by_cases hsettings : w.isFile (Path.below (Path.cleanRoot srcPath) settingsFileName) = true
    · obtain ⟨bytes, hread⟩ := Workspace.isFile_iff_readBytes.mp hsettings
      rw [if_neg (not_not_intro hsettings), if_neg (not_not_intro hsettings),
        hwrites.readText_eq hapart hread]
    · rw [if_pos hsettings, if_pos hsettings]
  rw [options, options, hload]

/-- Taken for settings, the build file is an error. -/
theorem settings_apart_of_options (hwf : c.graph.WellFormed) (hrules : c.graph.rules ≠ [])
    (h : options program w' srcPath = .ok o) :
    w'.placeOf (Path.below (Path.cleanRoot srcPath) settingsFileName) ≠ some place := by
  intro hplace
  have hread := Workspace.readBytes_of_placeOf hplace hwrites.part?_self
  have hfile := Workspace.isFile_iff_readBytes.mpr ⟨_, hread⟩
  obtain ⟨loaded, hload, -⟩ := bind_eq_ok_iff.mp h
  rw [loadSettings, if_neg (not_not_intro hfile), Workspace.readText_of_readBytes hread] at hload
  obtain ⟨settings, hsettings, -⟩ := bind_eq_ok_iff.mp hload
  rw [Settings.read, Toml.parse_render hwf hrules] at hsettings
  cases hsettings

theorem readScript_eq (hapart : w'.placeOf o.scriptPath ≠ some place) (h : readScript w o = .ok source) :
    readScript w' o = .ok source := by
  have hread : ∃ bytes, w.readBytes o.scriptPath = .ok bytes := by
    rw [readScript] at h
    split at h
    · rename_i text htext
      obtain ⟨bytes, hbytes, -⟩ := bind_eq_ok_iff.mp htext
      exact ⟨bytes, hbytes⟩
    · cases h
    · cases h
  obtain ⟨bytes, hbytes⟩ := hread
  rw [← h, readScript, readScript, hwrites.readText_eq hapart hbytes]

/-- Taken for the description, the build file is an error. -/
theorem script_apart_of_generate {c' : Compiled} (h : generate w' o = .ok c') :
    w'.placeOf o.scriptPath ≠ some place := by
  intro hplace
  have hread := Workspace.readBytes_of_placeOf hplace hwrites.part?_self
  obtain ⟨source, hsource, h⟩ := bind_eq_ok_iff.mp h
  rw [readScript, Workspace.readText_of_readBytes hread] at hsource
  cases hsource
  obtain ⟨error, herror⟩ := Ninja.exists_evaluate_render c.graph
  rw [generateFromSource, herror] at h
  cases h

/-- Settings that can be read after the first run are those of the first run. -/
theorem options_written {o' : RegenOptions} (hc : generate w o = .ok c)
    (ho : options program w srcPath = .ok o) (ho' : options program w' srcPath = .ok o') :
    o' = o ∧ w'.placeOf (Path.below (Path.cleanRoot srcPath) settingsFileName) ≠ some place := by
  obtain ⟨source, -, hgenerate⟩ := bind_eq_ok_iff.mp hc
  obtain ⟨d, compiled, -, -, hwired⟩ := generateFromSource_wired hgenerate
  have hrules : c.graph.rules ≠ [] := by
    rw [hwired.rules_eq]
    exact List.append_ne_nil_of_right_ne_nil _ (List.cons_ne_nil _ _)
  have hapart := settings_apart_of_options hwrites hwired.wellFormed hrules ho'
  rw [options_eq hwrites hapart, ho] at ho'
  cases ho'
  exact ⟨rfl, hapart⟩

end Written

/-! ### The second run -/

/-- The second run makes the same build file exactly if what it reads is the same. -/
theorem buildFile_again_iff (hdisk : w.root.OnDisk) (hbuild : buildFile program w srcPath = .ok (path, text))
    (hwrite : w.writeBytes path text.toUTF8 = .ok w') : ∃ o source d, options program w srcPath = .ok o ∧
      readScript w o = .ok source ∧ Script.evaluate source = .ok d ∧ o.graphFile = path ∧
      (buildFile program w' srcPath = .ok (path, text) ↔ InputKept w w' o d) := by
  obtain ⟨o, c, ho, hc, rfl, rfl⟩ := buildFile_eq_ok_iff.mp hbuild
  obtain ⟨source, hsource, hgenerate⟩ := bind_eq_ok_iff.mp hc
  obtain ⟨d, compiled, hd, hcompile, hwired⟩ := generateFromSource_wired hgenerate
  obtain ⟨place, hwrites, hdisk', hplace, -⟩ := Workspace.writes_of_writeBytes hwrite
  have hroot := srcRoot_of_options ho
  have hresolve := Workspace.resolve_eq_iff_of_holds hdisk (hdisk' hdisk) hwrites.cwd_eq hwrites.holds hcompile
  have hgrows := Workspace.grows_of_holds hdisk (hdisk' hdisk) hwrites.cwd_eq hwrites.holds o.srcRoot
  refine ⟨o, source, d, ho, hsource, hd, rfl, fun hbuild' => ?_, fun hkept => ?_⟩
  · obtain ⟨o', c', ho', hc', -, hrender⟩ := buildFile_eq_ok_iff.mp hbuild'
    obtain ⟨rfl, hsettings⟩ := options_written hwrites hc ho ho'
    have hscript := script_apart_of_generate hwrites hc'
    obtain ⟨source', hsource', hgenerate'⟩ := bind_eq_ok_iff.mp hc'
    rw [readScript_eq hwrites hscript hsource] at hsource'
    cases hsource'
    obtain ⟨d', compiled', hd', hcompile', hwired'⟩ := generateFromSource_wired hgenerate'
    rw [hd] at hd'
    cases hd'
    have hedges : compiled'.graph.edges = compiled.graph.edges := by
      have hedges := congrArg BuildGraph.edges (graph_eq_of_render_eq hgenerate hgenerate' hrender)
      rw [hwired.edges_eq, hwired'.edges_eq, compile_sourcePatterns hcompile,
        compile_sourcePatterns hcompile'] at hedges
      exact List.append_cancel_right hedges
    refine ⟨?_, ?_, hresolve.mp (hgrows.resolve_eq_of_edges_eq hcompile hcompile' hedges)⟩
    · rwa [hplace, hroot]
    · rwa [hplace]
  · have hsettings := hkept.settings_apart
    have hscript := hkept.script_apart
    rw [hplace, hroot] at hsettings
    rw [hplace] at hscript
    have hcompile' := hgrows.compile_of_resolve_eq hcompile (hresolve.mpr hkept.unmatched)
    refine buildFile_eq_ok_iff.mpr ⟨o, c, (options_eq hwrites hsettings).trans ho, ?_, rfl, rfl⟩
    rw [generate, readScript_eq hwrites hscript hsource]
    change generateFromSource (.ofWorkspace w' o.srcRoot) source o = .ok c
    rw [← hgenerate, generateFromSource, generateFromSource, hd]
    change (compile _ d >>= _) = (compile _ d >>= _)
    rw [hcompile', hcompile]

theorem runCommand_generate_iff {outcome : Outcome} :
    (runCommand program w (.generate srcPath) = (outcome, w') ∧ outcome.status = 0) ↔
      outcome = .done ∧ ∃ path text, buildFile program w srcPath = .ok (path, text) ∧
        w.writeBytes path text.toUTF8 = .ok w' := by
  unfold runCommand
  dsimp only
  cases hbuild : buildFile program w srcPath with
  | error failure =>
      constructor
      · rintro ⟨h, hstatus⟩
        cases h
        cases hstatus
      · rintro ⟨-, path, text, h, -⟩
        cases h
  | ok made =>
      obtain ⟨path, text⟩ := made
      dsimp only
      cases hwrite : w.writeBytes path text.toUTF8 with
      | error fault =>
          constructor
          · rintro ⟨h, hstatus⟩
            cases h
            cases hstatus
          · rintro ⟨-, path', text', h, hwrite'⟩
            cases h
            rw [hwrite] at hwrite'
            cases hwrite'
      | ok written =>
          constructor
          · rintro ⟨h, -⟩
            cases h
            exact ⟨rfl, path, text, rfl, hwrite⟩
          · rintro ⟨rfl, path', text', h, hwrite'⟩
            cases h
            rw [hwrite] at hwrite'
            cases hwrite'
            exact ⟨rfl, rfl⟩

/-- The second run leaves the same bytes exactly if it makes the same build file, and then it changes
nothing. -/
theorem generate_written_iff (hbuild : buildFile program w srcPath = .ok (path, text))
    (hwrite : w.writeBytes path text.toUTF8 = .ok w') :
    ((∃ outcome w'', runCommand program w' (.generate srcPath) = (outcome, w'') ∧ outcome.status = 0 ∧
        w''.readBytes path = w'.readBytes path) ↔
      buildFile program w' srcPath = .ok (path, text)) ∧
    (buildFile program w' srcPath = .ok (path, text) →
      runCommand program w' (.generate srcPath) = (.done, w')) := by
  obtain ⟨place, hwrites, -, hplace, hagain⟩ := Workspace.writes_of_writeBytes hwrite
  have hrun : buildFile program w' srcPath = .ok (path, text) →
      runCommand program w' (.generate srcPath) = (.done, w') :=
    fun hbuild' => (runCommand_generate_iff.mpr ⟨rfl, path, text, hbuild', hagain⟩).1
  refine ⟨⟨?_, fun hbuild' => ⟨_, _, hrun hbuild', rfl, rfl⟩⟩, hrun⟩
  rintro ⟨outcome, w'', hrun', hstatus, hbytes⟩
  obtain ⟨-, path', text', hbuild', hwrite'⟩ := runCommand_generate_iff.mp ⟨hrun', hstatus⟩
  obtain ⟨o, c, ho, hc, rfl, rfl⟩ := buildFile_eq_ok_iff.mp hbuild
  obtain ⟨o', c', ho', hc', rfl, rfl⟩ := buildFile_eq_ok_iff.mp hbuild'
  obtain ⟨rfl, -⟩ := options_written hwrites hc ho ho'
  obtain ⟨place', hwrites', -, hplace', -⟩ := Workspace.writes_of_writeBytes hwrite'
  rw [Workspace.readBytes_of_placeOf hplace hwrites.part?_self,
    Workspace.readBytes_of_placeOf hplace' hwrites'.part?_self] at hbytes
  have hrender : c'.graph.render = c.graph.render := String.toByteArray_inj.mp (Except.ok.inj hbytes)
  rw [← hrender]
  exact hbuild'

end CommandLine

open CommandLine in
/-- A run that generates leaves a tree on which the same run succeeds with the same build file exactly if
none of what it reads is the build file: neither the settings nor the description nor a file that is found
by a builder with targets where none was found before. Then the second run changes nothing at all. -/
theorem generate_again_iff {program srcPath : String} {w w' : Workspace} {args : List String}
    {outcome : Outcome} (hdisk : w.root.OnDisk) (hparse : parse args = some (.run (.generate srcPath)))
    (hrun : run program w args = (outcome, w')) (hstatus : outcome.status = 0) :
    ∃ o source d, options program w srcPath = .ok o ∧ readScript w o = .ok source ∧
      Script.evaluate source = .ok d ∧
      ((∃ outcome' w'', run program w' args = (outcome', w'') ∧ outcome'.status = 0 ∧
          w''.readBytes o.graphFile = w'.readBytes o.graphFile) ↔ InputKept w w' o d) ∧
      (InputKept w w' o d → run program w' args = (.done, w')) := by
  have hcommand : ∀ w, run program w args = runCommand program w (.generate srcPath) := by
    intro w
    unfold run
    rw [hparse]
  simp only [hcommand] at hrun ⊢
  obtain ⟨-, path, text, hbuild, hwrite⟩ := runCommand_generate_iff.mp ⟨hrun, hstatus⟩
  obtain ⟨o, source, d, ho, hsource, hd, rfl, hiff⟩ := buildFile_again_iff hdisk hbuild hwrite
  obtain ⟨hsame, hdone⟩ := generate_written_iff hbuild hwrite
  exact ⟨o, source, d, ho, hsource, hd, hsame.trans hiff, fun hkept => hdone (hiff.mpr hkept)⟩

/-! ### The build file next to the description -/

/-- A directory with a description in it, and what else there is. -/
def aloneWorkspace (source : String) (entries : List (RawPath × Node)) : Workspace :=
  ⟨.dir (("assets.js", .file source.toUTF8) :: entries), []⟩

section Alone

variable {source text : String} {entries : List (RawPath × Node)}

theorem locate_alone : (aloneWorkspace source entries).locate "." = .ok ⟨[], 40, Nat.le_refl 40⟩ := by
  have hroute : Route.parse "." = .ok ⟨false, ["."], false⟩ := rfl
  rw [Workspace.locate, hroute]
  exact Node.follow_eq_ok_iff.mpr (.stay rfl (.here _ _))

theorem child?_alone {name : RawPath} :
    (aloneWorkspace source entries).child? "." name =
      ((("assets.js" : RawPath), .file source.toUTF8) :: entries).lookup name :=
  Workspace.child?_eq locate_alone rfl

theorem placeOf_alone {name : RawPath} (hname : IsEntryName name) {content : ByteArray}
    (hfile : (aloneWorkspace source entries).root.part? [name] = some (.file content)) :
    (aloneWorkspace source entries).placeOf name = some [name] := by
  have hlocate : (aloneWorkspace source entries).locate name = .ok ⟨[name], 40, Nat.le_refl 40⟩ := by
    rw [Workspace.locate, Route.parse_name hname]
    exact Node.follow_eq_ok_iff.mpr
      (.down rfl hname.toIsPlain hfile (fun _ => Node.Part.noConfusion) (.here _ _))
  exact Workspace.placeOf_eq hlocate

theorem placeOf_alone_settings
    (hmissing : (aloneWorkspace source entries).root.part? ["assetman.toml"] = none) :
    (aloneWorkspace source entries).placeOf (Path.below "." settingsFileName) = none := by
  have hname : IsEntryName settingsFileName := by decide
  cases hlocate : (aloneWorkspace source entries).locate (Path.below "." settingsFileName) with
  | error fault =>
      rw [Workspace.placeOf, hlocate]
      rfl
  | ok found =>
      have hleads := ((Workspace.locate_below locate_alone hname).mp ⟨found.left_le, hlocate⟩).2
      obtain ⟨-, ⟨part, hpart, -⟩ | ⟨target, route, budget, hpart, -⟩⟩ :=
        (Node.leads_singleton_iff hname.toIsPlain).mp hleads
      · cases hmissing.symm.trans hpart
      · cases hmissing.symm.trans hpart

theorem sources_alone :
    Sources.ofWorkspace (aloneWorkspace source []) "." = ⟨".", fun _ => .ok ["assets.js"]⟩ := by
  have hstem : (Path.below "." "").utf8ByteSize = 2 := by decide
  have hat : (aloneWorkspace source []).root.at? [] = some (.dir [("assets.js", .file source.toUTF8)]) := rfl
  have hlisting : ([["assets.js"]] : List (List RawPath)).map Path.listed = ["assets.js"] := by decide +kernel
  have hfiles : ∀ hidden, (aloneWorkspace source []).listFiles "." hidden = .ok ["assets.js"] := by
    intro hidden
    have hvisible : Path.isHidden "assets.js" = false := by decide
    have hpaths : (aloneWorkspace source []).root.files hidden 40 [] [[]] 2
        [("assets.js", .file source.toUTF8)] = ([["assets.js"]] : List (List RawPath)) := by
      simp [Node.files_cons, Node.files_nil, Node.visit, Node.Visit.paths, hvisible]
    rw [Workspace.listFiles_eq_ok locate_alone hat, hstem, hpaths, hlisting, List.mergeSort_singleton]
  rw [Sources.ofWorkspace]
  congr
  exact funext hfiles

theorem options_alone : CommandLine.options "assetman" (aloneWorkspace source []) "." =
    .ok (.default "assetman" ".") := by
  have hnone : (aloneWorkspace source []).placeOf (Path.below "." settingsFileName) = none :=
    placeOf_alone_settings rfl
  have hfile : (aloneWorkspace source []).isFile (Path.below "." settingsFileName) = false := by
    rw [Bool.eq_false_iff]
    intro hfile
    obtain ⟨found, -, hlocate, -⟩ := Workspace.isFile_iff.mp hfile
    cases hnone.symm.trans (Workspace.placeOf_eq hlocate)
  have hload : loadSettings (aloneWorkspace source []) "." = .ok {} := by
    rw [loadSettings, hfile]
    rfl
  rw [CommandLine.options, Path.tidy_dot.cleanRoot_eq, hload]
  rfl

theorem scriptPath_default : (RegenOptions.default "assetman" ".").scriptPath = "assets.js" := by
  rw [RegenOptions.default, Path.joinRoot, if_pos (.inr rfl)]
  rfl

theorem readScript_alone :
    readScript (aloneWorkspace source []) (.default "assetman" ".") = .ok source := by
  have hplace : (aloneWorkspace source []).placeOf "assets.js" = some [("assets.js" : RawPath)] :=
    placeOf_alone (by decide) rfl
  rw [readScript, scriptPath_default,
    Workspace.readText_of_readBytes (Workspace.readBytes_of_placeOf hplace rfl)]

/-- A description that can be generated from is, into the directory that it lies in. -/
theorem exists_run_alone (hok : (generateFromSource ⟨".", fun _ => .ok ["assets.js"]⟩ source
      (.default "assetman" ".")).isOk = true) :
    ∃ text, CommandLine.buildFile "assetman" (aloneWorkspace source []) "." = .ok ("build.ninja", text) ∧
      (aloneWorkspace source []).writeBytes "build.ninja" text.toUTF8 =
        .ok (aloneWorkspace source [("build.ninja", .file text.toUTF8)]) := by
  have hname : IsEntryName "build.ninja" := by decide
  cases hgenerate : generateFromSource ⟨".", fun _ => .ok ["assets.js"]⟩ source (.default "assetman" ".") with
  | error fault =>
      rw [hgenerate] at hok
      cases hok
  | ok c =>
      refine ⟨c.graph.render, CommandLine.buildFile_eq_ok_iff.mpr ⟨_, c, options_alone, ?_, rfl, rfl⟩, ?_⟩
      · rw [generate, readScript_alone]
        change generateFromSource (.ofWorkspace (aloneWorkspace source []) ".") source _ = _
        rw [sources_alone, hgenerate]
      · have hcreates : (aloneWorkspace source []).root.Creates 40 [] ⟨false, ["build.ninja"], false⟩
            ([] ++ [("build.ninja" : RawPath)]) :=
          .here (.here _ _) rfl rfl rfl hname.toIsPlain (.inl rfl)
        rw [Workspace.writeBytes, Route.parse_name hname]
        exact bind_eq_ok_iff.mpr ⟨_, rfl, bind_eq_ok_iff.mpr ⟨_, hcreates.creationPlace, rfl⟩⟩

theorem onDisk_alone : (aloneWorkspace source []).root.OnDisk := by
  have hname : IsEntryName "assets.js" := by decide
  simp [aloneWorkspace, Node.OnDisk, hname]

end Alone

open CommandLine in
/-- An empty description in the current directory. -/
theorem generate_again_empty : ∃ w', run "assetman" (aloneWorkspace "" []) ["."] = (.done, w') ∧
    run "assetman" w' ["."] = (.done, w') := by
  have hparse : parse ["."] = some (.run (.generate ".")) := by decide
  have hempty : Script.evaluate "" = .ok {} := by decide +kernel
  have hok : (generateFromSource ⟨".", fun _ => .ok ["assets.js"]⟩ "" (.default "assetman" ".")).isOk =
      true := by decide +kernel
  obtain ⟨text, hbuild, hwrite⟩ := exists_run_alone hok
  have hrun : run "assetman" (aloneWorkspace "" []) ["."] =
      (.done, aloneWorkspace "" [("build.ninja", .file text.toUTF8)]) := by
    unfold run
    rw [hparse]
    exact (runCommand_generate_iff.mpr ⟨rfl, _, text, hbuild, hwrite⟩).1
  obtain ⟨o, source, d, ho, hsource, hd, -, hdone⟩ := generate_again_iff onDisk_alone hparse hrun rfl
  cases options_alone.symm.trans ho
  cases readScript_alone.symm.trans hsource
  cases hempty.symm.trans hd
  have hplace : (aloneWorkspace "" [("build.ninja", .file text.toUTF8)]).placeOf "build.ninja" =
      some [("build.ninja" : RawPath)] := placeOf_alone (by decide) rfl
  refine ⟨_, hrun, hdone ⟨?_, ?_, fun b hb => absurd hb List.not_mem_nil⟩⟩
  · change Workspace.placeOf _ (Path.below "." _) ≠ Workspace.placeOf _ "build.ninja"
    rw [hplace, placeOf_alone_settings rfl]
    exact nofun
  · have hscript : (aloneWorkspace "" [("build.ninja", .file text.toUTF8)]).placeOf "assets.js" =
        some [("assets.js" : RawPath)] := placeOf_alone (by decide) rfl
    change Workspace.placeOf _ _ ≠ Workspace.placeOf _ "build.ninja"
    rw [scriptPath_default, hscript, hplace]
    decide

/-- All files of a directory in one bundle. -/
def starSource : String :=
  "bundle('*').to('all').using('phony')"

def starDeclarations : Declarations where
  bundles := [{ pattern := "*", targets := ["all"], rule := some "phony" }]

theorem evaluate_starSource : Script.evaluate starSource = .ok starDeclarations :=
  Script.evaluate_eq_ok_of_reading 20 (by decide +kernel)

open CommandLine in
/-- The first run's build file is one of the files that the second run bundles. -/
theorem generate_again_star : ∃ w', run "assetman" (aloneWorkspace starSource []) ["."] = (.done, w') ∧
    ¬ ∃ outcome w'', run "assetman" w' ["."] = (outcome, w'') ∧ outcome.status = 0 ∧
      w''.readBytes "build.ninja" = w'.readBytes "build.ninja" := by
  have hrun : ∀ w, run "assetman" w ["."] = runCommand "assetman" w (.generate ".") := by
    intro w
    have hparse : parse ["."] = some (.run (.generate ".")) := by decide
    unfold run
    rw [hparse]
  simp only [hrun]
  have hok : (generateFromSource ⟨".", fun _ => .ok ["assets.js"]⟩ starSource
      (.default "assetman" ".")).isOk = true := by
    rw [generateFromSource, evaluate_starSource]
    decide +kernel
  obtain ⟨text, hbuild, hwrite⟩ := exists_run_alone hok
  refine ⟨_, (runCommand_generate_iff.mpr ⟨rfl, _, text, hbuild, hwrite⟩).1, fun hsame => ?_⟩
  obtain ⟨o, source, d, ho, hsource, hd, -, hiff⟩ := buildFile_again_iff onDisk_alone hbuild hwrite
  have hkept := hiff.mp ((generate_written_iff hbuild hwrite).1.mp hsame)
  cases options_alone.symm.trans ho
  cases readScript_alone.symm.trans hsource
  cases evaluate_starSource.symm.trans hd
  -- The build file is a file of the source directory now, and it was not one before.
  have hreaches : (aloneWorkspace starSource [("build.ninja", .file text.toUTF8)]).ReachesFile "."
      ["build.ninja"] :=
    Workspace.reachesFile_singleton_iff.mpr (.inl ⟨text.toUTF8, child?_alone⟩)
  have hnew : ¬ (aloneWorkspace starSource []).ReachesFile "." ["build.ninja"] := by
    rw [Workspace.reachesFile_singleton_iff]
    rintro (⟨content, hchild⟩ | ⟨⟨target, hchild⟩, -⟩) <;> cases child?_alone.symm.trans hchild
  have hfinds : Glob.Finds "*" ["build.ninja"] := ⟨by decide +kernel, .inr (by decide)⟩
  exact hkept.unmatched _ (List.mem_cons_self) (List.cons_ne_nil _ _) _ hreaches hnew hfinds

/-! ### The runs after that -/

theorem Workspace.Writes.placeOf_eq {w w' : Workspace} {place : Location} {content : ByteArray}
    (h : w.Writes w' place content) (hfile : ∃ old, w.root.part? place = some (.file old))
    (path : RawPath) : w'.placeOf path = w.placeOf path := by
  cases hlocate : w.locate path with
  | ok found => exact placeOf_mono h.cwd_eq h.holds (by rw [hlocate]; rfl)
  | error fault =>
      cases hlocate' : w'.locate path with
      | ok found =>
          rw [locate_mono h.cwd_eq.symm (h.holds_symm hfile) hlocate'] at hlocate
          cases hlocate
      | error fault' =>
          rw [placeOf, placeOf, hlocate, hlocate']
          rfl

open CommandLine in
/-- A run that only replaces its build file finds no new files. So whatever the first run did, the third
does nothing if the second succeeds. -/
theorem generate_settles {program srcPath : String} {w w' w'' : Workspace} {args : List String}
    {outcome outcome' : Outcome} (hdisk : w.root.OnDisk)
    (hparse : parse args = some (.run (.generate srcPath)))
    (hrun : run program w args = (outcome, w')) (hstatus : outcome.status = 0)
    (hrun' : run program w' args = (outcome', w'')) (hstatus' : outcome'.status = 0) :
    run program w'' args = (.done, w'') := by
  have hcommand : ∀ w, run program w args = runCommand program w (.generate srcPath) := by
    intro w
    unfold run
    rw [hparse]
  simp only [hcommand] at hrun hrun' ⊢
  obtain ⟨-, path, text, hbuild, hwrite⟩ := runCommand_generate_iff.mp ⟨hrun, hstatus⟩
  obtain ⟨-, path', text', hbuild', hwrite'⟩ := runCommand_generate_iff.mp ⟨hrun', hstatus'⟩
  obtain ⟨o, c, ho, hc, rfl, rfl⟩ := buildFile_eq_ok_iff.mp hbuild
  obtain ⟨place, hwrites, hdisk', hplace, -⟩ := Workspace.writes_of_writeBytes hwrite
  obtain ⟨o', source, d, ho', -, -, rfl, hiff⟩ := buildFile_again_iff (hdisk' hdisk) hbuild' hwrite'
  obtain ⟨rfl, hsettings⟩ := options_written hwrites hc ho ho'
  -- Both runs write to the same place, and at the second a file is there.
  have hwrites' := Workspace.writes_of_placeOf hplace hwrite'
  have hfile : ∃ old, w'.root.part? place = some (.file old) := ⟨_, hwrites.part?_self⟩
  have hplaces := hwrites'.placeOf_eq hfile
  refine (generate_written_iff hbuild' hwrite').2 (hiff.mpr ⟨?_, ?_, ?_⟩)
  · rw [hplaces, hplaces, hplace, srcRoot_of_options ho]
    exact hsettings
  · obtain ⟨o', c', ho'', hc', -, -⟩ := buildFile_eq_ok_iff.mp hbuild'
    obtain ⟨rfl, -⟩ := options_written hwrites hc ho ho''
    rw [hplaces, hplaces, hplace]
    exact script_apart_of_generate hwrites hc'
  · intro b hb htargets names hreaches hnew
    exact absurd (hreaches.mono hwrites'.cwd_eq.symm (hwrites'.holds_symm hfile)) hnew

end AssetPipeline
