import AssetPipeline.Proofs.Build.Generated
import AssetPipeline.Proofs.CommandLine.Operands
import AssetPipeline.Proofs.Ninja.Command
import AssetPipeline.Proofs.Path.Roots
import AssetPipeline.Proofs.Shell.Words

/-! The command by which a build file refreshes its file list. Whatever it is made of passes the executor
and the shell word by word. Behind them the words are arguments, and those that look like options are
read as options. -/

namespace AssetPipeline

namespace BuildGraph

/-- The command by which the executor makes a path. -/
def command? (quote : String → String) (g : BuildGraph) (path : String) : Option String := do
  let e ← g.producer? path
  let r ← g.rules.find? (·.name = e.rule)
  e.command? quote r

theorem WellFormed.find?_rule {g : BuildGraph} (h : g.WellFormed) {r : Rule} (hr : r ∈ g.rules) :
    g.rules.find? (·.name = r.name) = some r := by
  cases hfind : g.rules.find? (·.name = r.name) with
  | none =>
      rw [List.find?_eq_none] at hfind
      exact absurd (decide_eq_true rfl) (hfind r hr)
  | some found =>
      have hsome := List.find?_some hfind
      have hname : found.name = r.name := of_decide_eq_true hsome
      rw [List.inj_on_of_nodup_map h.names_nodup (List.mem_of_find?_eq_some hfind) hr hname]

/-- A path is made by the command of the one rule of its one edge. -/
theorem WellFormed.command?_eq {g : BuildGraph} (h : g.WellFormed) {e : Edge} {r : Rule} {path : String}
    (he : e ∈ g.edges) (hpath : path ∈ e.outputs) (hr : r ∈ g.rules) (hname : e.rule = r.name)
    (quote : String → String) : g.command? quote path = e.command? quote r := by
  have hproducer := h.indexed.producer?_eq_some_iff_mem.mpr ⟨he, hpath⟩
  have hfound := h.find?_rule hr
  rw [← hname] at hfound
  simp [command?, hproducer, hfound]

end BuildGraph

namespace Regeneration

/-- The rule that refreshes the file list. -/
def refreshing (o : RegenOptions) : Rule :=
  { name := refreshRule
    command := word o.program ++ " " ++ refreshCommand ++ " --root $root --output $out $patterns"
    description := some "Updating file list..."
    restat := true }

theorem refreshing_mem (o : RegenOptions) : refreshing o ∈ rules o :=
  List.mem_cons_self

variable {o : RegenOptions} {sourcePatterns : List String} {e : Edge}

theorem value?_fileListEdge (h : fileListEdge? o sourcePatterns = some e) (quote : String → String) :
    e.value? quote "root" = some (Shell.quote o.srcRoot) ∧ e.value? quote "out" = some (quote o.fileList) ∧
      e.value? quote "patterns" = some (Shell.join sourcePatterns) := by
  rw [fileListEdge?] at h
  split_ifs at h
  cases h
  have hroot : List.lookup "root" [("patterns", Ninja.escapeValue (Shell.join sourcePatterns)),
      ("root", word o.srcRoot)] = some (word o.srcRoot) := rfl
  refine ⟨?_, ?_, ?_⟩
  · rw [Edge.value?, if_neg (by decide), if_neg (by decide)]
    dsimp only
    rw [hroot]
    exact Ninja.expand?_escaped _
  · simp [Edge.value?]
  · simp [Edge.value?, Ninja.expand?_escaped]

/-- What the executor runs to refresh the file list. -/
theorem command?_refreshing (h : fileListEdge? o sourcePatterns = some e) (quote : String → String) :
    e.command? quote (refreshing o) =
      some (Shell.quote o.program ++ " " ++ (refreshCommand ++ " " ++ ("--root" ++ " " ++
        (Shell.quote o.srcRoot ++ " " ++ ("--output" ++ " " ++
          (quote o.fileList ++ " " ++ Shell.join sourcePatterns)))))) := by
  obtain ⟨hroot, hout, hpatterns⟩ := value?_fileListEdge h quote
  have hcommand : (refreshing o).command.toList = (word o.program).toList ++
      (" refresh-file-list --root ".toList ++ '$' :: 'r' :: (['o', 'o', 't'] ++
        (" --output ".toList ++ '$' :: 'o' :: (['u', 't'] ++
          (" ".toList ++ '$' :: 'p' :: (['a', 't', 't', 'e', 'r', 'n', 's'] ++ [])))))) := by
    simp [refreshing, refreshCommand]
  rw [Edge.command?, hcommand, word, Ninja.expand?_escapeValue, Ninja.expand?_append (by decide),
    Ninja.expand?_reference (by decide) (by decide) hroot,
    Ninja.expand?_append (by decide),
    Ninja.expand?_reference (by decide) (by decide) hout,
    Ninja.expand?_append (by decide),
    Ninja.expand?_reference (by decide) (by decide) hpatterns, Ninja.expand?]
  simp [← String.toList_inj, refreshCommand]

theorem words?_refreshing (h : fileListEdge? o sourcePatterns = some e) (quote : String → String) :
    (e.command? quote (refreshing o)).bind Shell.words? =
      (Shell.words? (quote o.fileList ++ " " ++ Shell.join sourcePatterns)).map fun rest =>
        o.program :: refreshCommand :: "--root" :: o.srcRoot :: "--output" :: rest := by
  have hverb : Shell.words? refreshCommand = some [refreshCommand] := by decide
  have hrootOption : Shell.words? "--root" = some ["--root"] := by decide
  have houtputOption : Shell.words? "--output" = some ["--output"] := by decide
  rw [command?_refreshing h, Option.bind_some, Shell.words?_append_blank (Shell.words?_quote _),
    Shell.words?_append_blank hverb, Shell.words?_append_blank hrootOption,
    Shell.words?_append_blank (Shell.words?_quote _), Shell.words?_append_blank houtputOption]
  simp only [Option.map_map]
  rfl

end Regeneration

variable {sources : Sources} {source : String} {o : RegenOptions} {c : Compiled}

/-- The command that makes the file list is that of the refreshing rule. -/
theorem command?_fileList (h : generateFromSource sources source o = .ok c)
    (hpatterns : c.sourcePatterns ≠ []) (quote : String → String) :
    ∃ e, Regeneration.fileListEdge? o c.sourcePatterns = some e ∧
      c.graph.command? quote o.fileList = e.command? quote (Regeneration.refreshing o) := by
  obtain ⟨d, compiled, -, -, hwired⟩ := generateFromSource_wired h
  obtain ⟨e, hedge⟩ : ∃ e, Regeneration.fileListEdge? o c.sourcePatterns = some e := by
    rw [Regeneration.fileListEdge?, if_neg hpatterns]
    exact ⟨_, rfl⟩
  obtain ⟨hrule, houtputs, -⟩ := Regeneration.fileListEdge?_eq_some hedge
  have hmem : e ∈ c.graph.edges := by
    rw [hwired.edges_eq, ← hwired.sourcePatterns_eq]
    exact List.mem_append_right _ (Regeneration.mem_edges_iff.mpr (Or.inr (Or.inl hedge)))
  refine ⟨e, hedge, hwired.wellFormed.command?_eq hmem (houtputs ▸ List.mem_singleton_self _) ?_ hrule quote⟩
  rw [hwired.rules_eq]
  exact List.mem_append_right _ (Regeneration.refreshing_mem o)

/-- The refreshing command of a generated build file means what was generated exactly if none of its
texts looks like an option and the file list has a name. -/
theorem refresh_command_iff (h : generateFromSource sources source o = .ok c)
    (hpatterns : c.sourcePatterns ≠ []) (hroot : ∃ root, o.srcRoot = Path.cleanRoot root)
    (quote : String → String) (hquote : ∀ text, text ≠ "" → Shell.words? (quote text) = some [text]) :
    (∃ words, (c.graph.command? quote o.fileList).bind Shell.words? = some (o.program :: words) ∧
        CommandLine.parse words = some (.run (.refresh o.srcRoot o.fileList c.sourcePatterns))) ↔
      CommandLine.IsOperand o.srcRoot ∧ o.fileList ≠ "" ∧ CommandLine.IsOperand o.fileList ∧
        ∀ pattern ∈ c.sourcePatterns, CommandLine.IsOperand pattern := by
  obtain ⟨e, hedge, hcommand⟩ := command?_fileList h hpatterns quote
  have hrootNe : o.srcRoot ≠ "" := by
    obtain ⟨root, hroot⟩ := hroot
    rw [hroot]
    exact Path.cleanRoot_ne_empty root
  have hwords : o.fileList ≠ "" →
      Shell.words? (quote o.fileList ++ " " ++ Shell.join c.sourcePatterns) =
        some (o.fileList :: c.sourcePatterns) := by
    intro hlist
    rw [Shell.words?_append_blank (hquote o.fileList hlist), Shell.words?_join]
    rfl
  rw [hcommand, Regeneration.words?_refreshing hedge]
  constructor
  · rintro ⟨words, hread, hparse⟩
    obtain ⟨rest, hrest, hsplit⟩ := Option.map_eq_some_iff.mp hread
    cases hsplit
    have hlist := CommandLine.output_ne_of_parse hparse
    rw [hwords hlist] at hrest
    cases hrest
    exact (CommandLine.parse_refresh_iff hrootNe hpatterns).mp hparse
  · intro hoperands
    rw [hwords hoperands.2.1]
    exact ⟨_, rfl, (CommandLine.parse_refresh_iff hrootNe hpatterns).mpr hoperands⟩

/-- A file list without a name is a usage error. -/
example : CommandLine.parse [refreshCommand, "--root", "src", "--output", "", "*.psd"] = none := by
  decide +kernel

theorem refresh_command_portrait :
    ∃ c, generateFromSource ⟨"src", fun _ => .ok ["a b.psd"]⟩ portraitSource
        (.default "assetman" "src") = .ok c ∧
      ∃ words, (c.graph.command? Shell.quote ".src_files").bind Shell.words? =
          some ("assetman" :: words) ∧
        CommandLine.parse words = some (.run (.refresh "src" ".src_files" c.sourcePatterns)) := by
  obtain ⟨c, hc, -, hpatterns, -⟩ := exists_generated_portrait
  refine ⟨c, hc, (refresh_command_iff hc ?_ ⟨"src", by decide +kernel⟩ Shell.quote
    fun text _ => Shell.words?_quote text).mpr ?_⟩
  · rw [hpatterns]
    exact List.cons_ne_nil _ _
  · rw [hpatterns]
    decide +kernel

/-- A description whose pattern looks like an option. -/
def hyphenSource : String :=
  "rule('c').command('x') single('-*.psd').to('y').using('c')"

def hyphenDeclarations : Declarations where
  rules := [{ name := "c", command := some "x" }]
  singles := [(Single.withTarget { pattern := "-*.psd" } "y").withRule "c"]

theorem evaluate_hyphenSource : Script.evaluate hyphenSource = .ok hyphenDeclarations :=
  Script.evaluate_eq_ok_of_reading 20 (by decide +kernel)

/-- The pattern reaches the program as it was written, and there it is a usage error. -/
theorem refresh_command_hyphen :
    ∃ c, generateFromSource ⟨"src", fun _ => .ok ["-a.psd"]⟩ hyphenSource
        (.default "assetman" "src") = .ok c ∧ c.sourcePatterns = ["-*.psd"] ∧
      ∃ words, (c.graph.command? Shell.quote ".src_files").bind Shell.words? =
        some ("assetman" :: words) ∧ CommandLine.parse words = none := by
  have hpatterns : ((generateFromSource ⟨"src", fun _ => .ok ["-a.psd"]⟩ hyphenSource
      (.default "assetman" "src")).toOption.map (·.sourcePatterns)) = some ["-*.psd"] := by
    rw [generateFromSource, evaluate_hyphenSource]
    decide +kernel
  obtain ⟨c, hc, hpatterns⟩ := exists_ok_of_toOption_map hpatterns
  obtain ⟨e, hedge, hcommand⟩ := command?_fileList hc (by simp [hpatterns]) Shell.quote
  have hcommand : c.graph.command? Shell.quote ".src_files" = _ := hcommand
  refine ⟨c, hc, hpatterns, [refreshCommand, "--root", "src", "--output", ".src_files", "-*.psd"], ?_,
    by decide +kernel⟩
  rw [hcommand, Regeneration.words?_refreshing hedge,
    Shell.words?_append_blank (Shell.words?_quote _), Shell.words?_join, hpatterns]
  rfl

end AssetPipeline
