import AssetPipeline.CommandLine.Run
import AssetPipeline.Proofs.Build.Refreshing
import AssetPipeline.Proofs.Files.RawPath

/-! The command by which a build file makes itself anew. The executor and the shell hand the cleaned root
over as it is. It is read again as the argument that it came from, unless cleaning took away the very
`./` that kept the name of a directory from being read as an option or as a subcommand. -/

namespace AssetPipeline

namespace Regeneration

/-- The rule that makes the build file. -/
def generating (o : RegenOptions) : Rule :=
  { name := generateRule
    command := word o.program ++ " " ++ word o.srcRoot
    description := some "Re-running assetman..."
    generator := true }

variable {o : RegenOptions}

theorem generating_mem (o : RegenOptions) : generating o ∈ rules o :=
  List.mem_cons_of_mem _ List.mem_cons_self

theorem command?_generating (e : Edge) (quote : String → String) :
    e.command? quote (generating o) = some (Shell.quote o.program ++ " " ++ Shell.quote o.srcRoot) := by
  have hcommand : (generating o).command.toList =
      (word o.program).toList ++ (" ".toList ++ ((word o.srcRoot).toList ++ [])) := by
    simp [generating]
  rw [Edge.command?, hcommand, word, word, Ninja.expand?_escapeValue, Ninja.expand?_append (by decide),
    Ninja.expand?_escapeValue, Ninja.expand?]
  simp [← String.toList_inj]

/-- The words that are run to make the build file. -/
theorem words?_generating (e : Edge) (quote : String → String) :
    (e.command? quote (generating o)).bind Shell.words? = some [o.program, o.srcRoot] := by
  rw [command?_generating, Option.bind_some, Shell.words?_append_blank (Shell.words?_quote _),
    Shell.words?_quote]
  rfl

end Regeneration

theorem words?_graphFile {sources : Sources} {source : String} {o : RegenOptions} {c : Compiled}
    (h : generateFromSource sources source o = .ok c) (quote : String → String) :
    (c.graph.command? quote o.graphFile).bind Shell.words? = some [o.program, o.srcRoot] := by
  obtain ⟨d, compiled, -, -, hwired⟩ := generateFromSource_wired h
  have hedge : Regeneration.generateEdge o compiled.sourcePatterns ∈ c.graph.edges := by
    rw [hwired.edges_eq]
    exact List.mem_append_right _ (Regeneration.mem_edges_iff.mpr (Or.inr (Or.inr (Or.inl rfl))))
  have hrule : Regeneration.generating o ∈ c.graph.rules := by
    rw [hwired.rules_eq]
    exact List.mem_append_right _ (Regeneration.generating_mem o)
  rw [hwired.wellFormed.command?_eq hedge (List.mem_singleton_self _) hrule rfl]
  exact Regeneration.words?_generating _ quote

/-- A cleaned root that stands alone on a command line means itself, unless it looks like an option or is
the name of a subcommand. -/
theorem CommandLine.parse_cleaned_iff {root : String} (hclean : Path.cleanRoot root = root) :
    (∃ path, parse [root] = some (.run (.generate path)) ∧ Path.cleanRoot path = root) ↔
      IsOperand root ∧ root ≠ refreshCommand ∧ root ≠ "help" := by
  have hne : root ≠ "" := hclean ▸ Path.cleanRoot_ne_empty root
  constructor
  · rintro ⟨path, hparse, hpath⟩
    by_cases hoperand : IsOperand root
    · exact ⟨hoperand, ((parse_operand_iff hne hoperand).mp hparse).2⟩
    · -- Flags leave the current directory for the path, and that does not look like an option.
      have hdot : Path.cleanRoot "." = "." := Path.tidy_dot.cleanRoot_eq
      rw [path_of_parse_singleton hoperand hparse, hdot] at hpath
      rw [← hpath] at hoperand
      exact absurd (by decide) hoperand
  · rintro ⟨hoperand, hnames⟩
    exact ⟨root, (parse_operand_iff hne hoperand).mpr ⟨rfl, hnames⟩, hclean⟩

/-- What a build file is made of: options over the cleaned root, and the graph for them. -/
theorem CommandLine.exists_of_buildFile {program : String} {w : Workspace} {srcPath path text : String}
    (h : buildFile program w srcPath = .ok (path, text)) :
    ∃ o c, o.srcRoot = Path.cleanRoot srcPath ∧ generate w o = .ok c ∧ path = o.graphFile ∧
      text = c.graph.render := by
  obtain ⟨loaded, -, h⟩ := bind_eq_ok_iff.mp h
  obtain ⟨c, hc, h⟩ := bind_eq_ok_iff.mp h
  cases h
  exact ⟨_, c, rfl, mapError_eq_ok_iff.mp hc, rfl, rfl⟩

/-- A build file makes itself anew by the run that made it exactly if the root of that run neither looks
like an option nor is the name of a subcommand. -/
theorem generate_command_iff {program : String} {w : Workspace} {srcPath path text : String}
    (h : CommandLine.buildFile program w srcPath = .ok (path, text)) :
    ∃ o c, o.srcRoot = Path.cleanRoot srcPath ∧ generate w o = .ok c ∧ path = o.graphFile ∧
      text = c.graph.render ∧ ∀ quote,
        ((∃ words srcPath', (c.graph.command? quote path).bind Shell.words? = some (o.program :: words) ∧
            CommandLine.parse words = some (.run (.generate srcPath')) ∧
            Path.cleanRoot srcPath' = o.srcRoot) ↔
          CommandLine.IsOperand o.srcRoot ∧ o.srcRoot ≠ refreshCommand ∧ o.srcRoot ≠ "help") := by
  obtain ⟨o, c, hroot, hc, rfl, htext⟩ := CommandLine.exists_of_buildFile h
  refine ⟨o, c, hroot, hc, rfl, htext, fun quote => ?_⟩
  obtain ⟨source, -, hgenerate⟩ := bind_eq_ok_iff.mp hc
  have hclean : Path.cleanRoot o.srcRoot = o.srcRoot := by
    rw [hroot, Path.cleanRoot_cleanRoot]
  rw [words?_graphFile hgenerate, ← CommandLine.parse_cleaned_iff hclean]
  constructor
  · rintro ⟨words, srcPath', hwords, hparse⟩
    cases hwords
    exact ⟨srcPath', hparse⟩
  · rintro ⟨srcPath', hparse⟩
    exact ⟨_, srcPath', rfl, hparse⟩

/-- A source directory of the given name with an empty description in it. -/
def emptySourceWorkspace (name : String) : Workspace :=
  ⟨.dir [(name, .dir [("assets.js", .file .empty)])], []⟩

section EmptySource

variable {name : String}

theorem readText_emptySource
    (hroute : Route.parse (Path.joinRoot name defaultScript) = .ok ⟨false, [name, "assets.js"], false⟩)
    (hname : name ≠ "." ∧ name ≠ ".." ∧ ¬ Route.maxNameBytes < name.utf8ByteSize) :
    (emptySourceWorkspace name).readText (Path.joinRoot name defaultScript) = .ok "" := by
  have hlength : ¬ Route.maxNameBytes < "assets.js".utf8ByteSize := by decide +kernel
  have hlocate : (emptySourceWorkspace name).locate (Path.joinRoot name defaultScript) =
      .ok ⟨[name, "assets.js"], 40, Nat.le_refl 40⟩ := by
    rw [Workspace.locate, hroute]
    simp [emptySourceWorkspace, bind, Except.bind, Route.steps, Route.start, Node.follow, Node.at?,
      Workspace.maxLinks, hname, hlength]
  have hat : (emptySourceWorkspace name).root.at? [name, "assets.js"] = some (.file .empty) := by
    simp [emptySourceWorkspace, Node.at?]
  have hempty : String.fromUTF8? ByteArray.empty = some "" := by decide +kernel
  simp [Workspace.readText, Workspace.readBytes, Workspace.node, hlocate, hat, hempty, bind,
    Except.bind, pure, Except.pure]

theorem loadSettings_emptySource
    (hroute : Route.parse (Path.below name settingsFileName) = .ok ⟨false, [name, "assetman.toml"], false⟩)
    (hname : name ≠ "." ∧ name ≠ ".." ∧ ¬ Route.maxNameBytes < name.utf8ByteSize) :
    loadSettings (emptySourceWorkspace name) name = .ok {} := by
  have hlength : ¬ Route.maxNameBytes < "assetman.toml".utf8ByteSize := by decide +kernel
  have hmissing : List.lookup ("assetman.toml" : RawPath) [("assets.js", Node.file .empty)] = none := rfl
  have hlocate : (emptySourceWorkspace name).locate (Path.below name settingsFileName) =
      .error .notFound := by
    rw [Workspace.locate, hroute]
    simp [emptySourceWorkspace, bind, Except.bind, Route.steps, Route.start, Node.follow, Node.at?,
      Workspace.maxLinks, hname, hlength, hmissing]
  simp [loadSettings, Workspace.isFile, Workspace.node, hlocate, bind, Except.bind]

/-- An empty description makes a build file. -/
theorem exists_buildFile_emptySource {srcPath : String} (hroot : Path.cleanRoot srcPath = name)
    (hscript : Route.parse (Path.joinRoot name defaultScript) = .ok ⟨false, [name, "assets.js"], false⟩)
    (hsettings : Route.parse (Path.below name settingsFileName) = .ok ⟨false, [name, "assetman.toml"], false⟩)
    (hname : name ≠ "." ∧ name ≠ ".." ∧ ¬ Route.maxNameBytes < name.utf8ByteSize)
    (hok : (generateFromSource (.ofWorkspace (emptySourceWorkspace name) name) ""
      (.default "assetman" name)).isOk = true) :
    ∃ text, CommandLine.buildFile "assetman" (emptySourceWorkspace name) srcPath =
      .ok (defaultGraphFile, text) := by
  cases hgenerate : generateFromSource (.ofWorkspace (emptySourceWorkspace name) name) ""
      (.default "assetman" name) with
  | error fault =>
      rw [hgenerate] at hok
      cases hok
  | ok c =>
      have hread : readScript (emptySourceWorkspace name) (.default "assetman" name) = .ok "" := by
        rw [readScript, RegenOptions.default, readText_emptySource hscript hname]
      have hc : generate (emptySourceWorkspace name) (.default "assetman" name) = .ok c := by
        rw [generate, hread]
        exact hgenerate
      refine ⟨c.graph.render, ?_⟩
      rw [CommandLine.buildFile, hroot, loadSettings_emptySource hsettings hname]
      change (generate (emptySourceWorkspace name) (.default "assetman" name)).mapError Failure.build >>= _ = _
      rw [hc]
      rfl

end EmptySource

theorem generate_command_art :
    ∃ text, CommandLine.buildFile "assetman" (emptySourceWorkspace "art") "./art/" =
        .ok ("build.ninja", text) ∧
      ∃ (o : RegenOptions) (c : Compiled) (words : List String) (path : String), text = c.graph.render ∧
        (c.graph.command? Shell.quote "build.ninja").bind Shell.words? = some (o.program :: words) ∧
        CommandLine.parse words = some (.run (.generate path)) ∧ Path.cleanRoot path = "art" := by
  have hroot : Path.cleanRoot "./art/" = "art" := by decide +kernel
  have hscript : Route.parse (Path.joinRoot "art" defaultScript) =
      .ok ⟨false, ["art", "assets.js"], false⟩ := by
    rw [show Path.joinRoot "art" defaultScript = "art/assets.js" by decide +kernel]
    rfl
  have hsettings : Route.parse (Path.below "art" settingsFileName) =
      .ok ⟨false, ["art", "assetman.toml"], false⟩ := by
    rw [show Path.below "art" settingsFileName = "art/assetman.toml" by decide +kernel]
    rfl
  obtain ⟨text, htext⟩ := exists_buildFile_emptySource hroot hscript hsettings (by decide +kernel)
    (by decide +kernel)
  obtain ⟨o, c, hsrcRoot, -, -, hrender, hiff⟩ := generate_command_iff htext
  rw [hroot] at hsrcRoot
  rw [hsrcRoot] at hiff
  obtain ⟨words, path, hwords, hparse, hpath⟩ := (hiff Shell.quote).mpr (by decide)
  exact ⟨text, htext, o, c, words, path, hrender, hwords, hparse, hpath⟩

/-- A directory whose name begins with a hyphen can be given with `./` before it. The build file has the
name without, and running it is a usage error. -/
theorem generate_command_hyphen :
    CommandLine.parse ["./-x"] = some (.run (.generate "./-x")) ∧
      ∃ text, CommandLine.buildFile "assetman" (emptySourceWorkspace "-x") "./-x" =
          .ok ("build.ninja", text) ∧
        ∃ o c, generate (emptySourceWorkspace "-x") o = .ok c ∧ text = c.graph.render ∧
          (c.graph.command? Shell.quote "build.ninja").bind Shell.words? = some [o.program, "-x"] ∧
          CommandLine.parse ["-x"] = none := by
  have hroot : Path.cleanRoot "./-x" = "-x" := by decide +kernel
  have hscript : Route.parse (Path.joinRoot "-x" defaultScript) =
      .ok ⟨false, ["-x", "assets.js"], false⟩ := by
    rw [show Path.joinRoot "-x" defaultScript = "-x/assets.js" by decide +kernel]
    rfl
  have hsettings : Route.parse (Path.below "-x" settingsFileName) =
      .ok ⟨false, ["-x", "assetman.toml"], false⟩ := by
    rw [show Path.below "-x" settingsFileName = "-x/assetman.toml" by decide +kernel]
    rfl
  obtain ⟨text, htext⟩ := exists_buildFile_emptySource hroot hscript hsettings (by decide +kernel)
    (by decide +kernel)
  obtain ⟨o, c, hsrcRoot, hc, hgraphFile, hrender⟩ := CommandLine.exists_of_buildFile htext
  obtain ⟨source, -, hgenerate⟩ := bind_eq_ok_iff.mp hc
  have hwords := words?_graphFile hgenerate Shell.quote
  rw [← hgraphFile, hsrcRoot, hroot] at hwords
  exact ⟨by decide +kernel, text, htext, o, c, hc, hrender, hwords, by decide +kernel⟩

end AssetPipeline
