import AssetPipeline.Build.Generation
import AssetPipeline.Proofs.Build.Expansion
import AssetPipeline.Proofs.Graph.Session
import AssetPipeline.Proofs.Ninja.RoundTrip
import AssetPipeline.Proofs.Script.Progress

/-! Generated build files. The graph of a description is the graph of its declarations with the
bookkeeping rules and edges after it. Its texts have all been checked for line breaks, those of the
default targets as outputs of edges, so the build file reads back as the graph. -/

namespace AssetPipeline

namespace Regeneration

/-- The edge of the dirty marker. -/
def dirtyEdge (o : RegenOptions) : Edge :=
  { rule := phony, outputs := [o.dirtyMarker] }

/-- The edge that makes the build file. -/
def generateEdge (o : RegenOptions) (sourcePatterns : List String) : Edge :=
  { rule := generateRule
    outputs := [o.graphFile]
    inputs := [o.scriptPath] ++ o.settingsPath.toList ++
      (fileListEdge? o sourcePatterns).toList.flatMap (·.outputs) }

def cleanEdge : Edge :=
  { rule := cleanRule, outputs := ["clean"] }

theorem edges_eq (o : RegenOptions) (sourcePatterns : List String) :
    edges o sourcePatterns = [dirtyEdge o] ++ (fileListEdge? o sourcePatterns).toList ++
      [generateEdge o sourcePatterns, cleanEdge] := rfl

variable {o : RegenOptions} {sourcePatterns : List String} {e : Edge}

theorem fileListEdge?_eq_some (h : fileListEdge? o sourcePatterns = some e) :
    e.rule = refreshRule ∧ e.outputs = [o.fileList] ∧ e.inputs = [o.dirtyMarker] := by
  rw [fileListEdge?] at h
  split_ifs at h
  cases h
  exact ⟨rfl, rfl, rfl⟩

theorem mem_edges_iff : e ∈ edges o sourcePatterns ↔ e = dirtyEdge o ∨
    fileListEdge? o sourcePatterns = some e ∨ e = generateEdge o sourcePatterns ∨ e = cleanEdge := by
  simp [edges_eq]

end Regeneration

variable {sources : Sources} {source : String} {o : RegenOptions} {c : Compiled}

theorem compile_wellFormed {d : Declarations} (h : compile sources d = .ok c) : c.graph.WellFormed := by
  obtain ⟨graph, first, second, hrules, -, hadds⟩ := compile_adds h
  obtain ⟨-, hrules⟩ := Compiled.foldlM_addRule_eq_ok hrules
  exact hadds.wellFormed (BuildGraph.wellFormed_empty.foldlM_addRule hrules)

/-- `c` is `compiled` with the bookkeeping rules and edges after its own, and default targets. -/
structure Compiled.Wired (o : RegenOptions) (compiled c : Compiled) : Prop where
  rules_eq : c.graph.rules = compiled.graph.rules ++ Regeneration.rules o
  edges_eq : c.graph.edges = compiled.graph.edges ++ Regeneration.edges o compiled.sourcePatterns
  defaults_eq : c.graph.defaults = Regeneration.defaults o compiled.outputs
  outputs_eq : c.outputs = compiled.outputs
  sourcePatterns_eq : c.sourcePatterns = compiled.sourcePatterns
  wellFormed : c.graph.WellFormed

theorem generateFromSource_wired (h : generateFromSource sources source o = .ok c) :
    ∃ d compiled, Script.evaluate source = .ok d ∧ compile sources d = .ok compiled ∧
      compiled.Wired o c := by
  obtain ⟨d, hd, h⟩ := bind_eq_ok_iff.mp h
  obtain ⟨compiled, hcompiled, h⟩ := bind_eq_ok_iff.mp h
  obtain ⟨graph, hgraph, h⟩ := bind_eq_ok_iff.mp h
  cases h
  rw [mapError_eq_ok_iff] at hd hgraph
  rw [GraphEdit.apply_wireRegeneration] at hgraph
  obtain ⟨ruled, hruled, hgraph⟩ := bind_eq_ok_iff.mp hgraph
  obtain ⟨edged, hedged, hgraph⟩ := bind_eq_ok_iff.mp hgraph
  cases hgraph
  have hwf := ((compile_wellFormed hcompiled).foldlM_addRule hruled).foldlM_addEdge hedged
  obtain ⟨hrules, hedges, -⟩ := BuildGraph.foldlM_addEdge_eq_ok hedged
  have hruled := BuildGraph.foldlM_addRule_eq_ok hruled
  refine ⟨d, compiled, hd, hcompiled, ?_, ?_, rfl, rfl, rfl, hwf.setDefaults _⟩
  · rw [hrules, hruled]
  · rw [hedges, hruled]

/-- Every default target is an output of an edge. -/
theorem exists_edge_of_mem_defaults (h : generateFromSource sources source o = .ok c) {path : String}
    (hpath : path ∈ c.graph.defaults) : ∃ e ∈ c.graph.edges, path ∈ e.outputs := by
  obtain ⟨d, compiled, -, hcompiled, hwired⟩ := generateFromSource_wired h
  rw [hwired.defaults_eq, Regeneration.defaults] at hpath
  rw [hwired.edges_eq]
  split_ifs at hpath with hempty
  · refine ⟨_, List.mem_append_right _ (List.mem_append_right _ List.mem_cons_self), ?_⟩
    exact hpath
  · obtain ⟨-, -, -, -, houtputs⟩ := compile_edges hcompiled
    rw [houtputs, List.mem_flatMap] at hpath
    obtain ⟨e, he, hpath⟩ := hpath
    exact ⟨e, List.mem_append_left _ he, hpath⟩

theorem oneLine_of_mem_defaults (h : generateFromSource sources source o = .ok c) {path : String}
    (hpath : path ∈ c.graph.defaults) : OneLine path := by
  obtain ⟨d, compiled, -, -, hwired⟩ := generateFromSource_wired h
  obtain ⟨e, he, hpath⟩ := exists_edge_of_mem_defaults h hpath
  exact (hwired.wellFormed.edge_sound e he).path_oneLine path (List.mem_append_left _ hpath)

/-- A well-formed graph is known by what its build file says. -/
theorem BuildGraph.WellFormed.eq_of_content_eq {g g' : BuildGraph} (hg : g.WellFormed)
    (hg' : g'.WellFormed) (h : Ninja.Content.ofGraph g = Ninja.Content.ofGraph g') : g = g' := by
  have hrules : g.rules = g'.rules := congrArg Ninja.Content.rules h
  have hedges : g.edges = g'.edges := congrArg Ninja.Content.edges h
  have hdefaults : g.defaults = g'.defaults := congrArg Ninja.Content.defaults h
  have hproducers : g.producers = g'.producers := by
    rw [hg.producers_eq, hg'.producers_eq, hedges]
  cases g
  cases g'
  cases hrules
  cases hedges
  cases hdefaults
  cases hproducers
  rfl

/-- Generated graphs with the same build file are the same. -/
theorem graph_eq_of_render_eq {sources' : Sources} {source' : String} {o' : RegenOptions} {c' : Compiled}
    (h : generateFromSource sources source o = .ok c)
    (h' : generateFromSource sources' source' o' = .ok c') (hrender : c'.graph.render = c.graph.render) :
    c'.graph = c.graph := by
  obtain ⟨d, compiled, -, -, hwired⟩ := generateFromSource_wired h
  obtain ⟨d', compiled', -, -, hwired'⟩ := generateFromSource_wired h'
  have hread := Ninja.read?_render hwired.wellFormed fun path => oneLine_of_mem_defaults h
  have hread' := Ninja.read?_render hwired'.wellFormed fun path => oneLine_of_mem_defaults h'
  rw [hrender, hread] at hread'
  exact hwired'.wellFormed.eq_of_content_eq hwired.wellFormed (Option.some.inj hread').symm

/-- A generated build file reads back as its graph, with no line left over: its lines are those that
were written for the rules, edges and defaults. So no other graph has the same build file. -/
theorem generated_readable (h : generateFromSource sources source o = .ok c) :
    Ninja.read? c.graph.render =
        some { rules := c.graph.rules, edges := c.graph.edges, defaults := c.graph.defaults } ∧
      c.graph.render.toList.splitOn '\n' = (Ninja.lines c.graph).map String.toList ++ [[]] ∧
      ∀ sources' source' o' c', generateFromSource sources' source' o' = .ok c' →
        c'.graph.render = c.graph.render → c'.graph = c.graph := by
  obtain ⟨d, compiled, -, -, hwired⟩ := generateFromSource_wired h
  have hread := Ninja.read?_render hwired.wellFormed fun path => oneLine_of_mem_defaults h
  have hlines := Ninja.lines_oneLine hwired.wellFormed fun path => oneLine_of_mem_defaults h
  exact ⟨hread, Ninja.splitOn_render hlines, fun sources' source' o' c' => graph_eq_of_render_eq h⟩

/-- A description whose target needs escapes and whose variable holds an equals sign. -/
def portraitSource : String :=
  "rule('c').command('x $in') single('*.psd').to('$filename:$.png').assign('k', ' = v').using('c')"

def portraitDeclarations : Declarations where
  rules := [{ name := "c", command := some "x $in" }]
  singles := [((Single.withTarget { pattern := "*.psd" } "$filename:$.png").assign "k" " = v").withRule "c"]

theorem evaluate_portraitSource : Script.evaluate portraitSource = .ok portraitDeclarations :=
  Script.evaluate_eq_ok_of_reading 20 (by decide +kernel)

/-- What is made of the description for one picture. -/
theorem exists_generated_portrait :
    ∃ c, generateFromSource ⟨"src", fun _ => .ok ["a b.psd"]⟩ portraitSource
        (.default "assetman" "src") = .ok c ∧
      c.graph.defaults = ["a b:$.png"] ∧ c.sourcePatterns = ["*.psd"] ∧
      ∀ e ∈ c.graph.edges, ∀ path ∈ e.outputs, path ≠ "src/a b.psd" := by
  have hview : ((generateFromSource ⟨"src", fun _ => .ok ["a b.psd"]⟩ portraitSource
      (.default "assetman" "src")).toOption.map fun c => decide (c.graph.defaults = ["a b:$.png"] ∧
        c.sourcePatterns = ["*.psd"] ∧
        ∀ e ∈ c.graph.edges, ∀ path ∈ e.outputs, path ≠ "src/a b.psd")) = some true := by
    rw [generateFromSource, evaluate_portraitSource]
    decide +kernel
  obtain ⟨c, hc, hview⟩ := exists_ok_of_toOption_map hview
  exact ⟨c, hc, of_decide_eq_true hview⟩

theorem generated_readable_portrait :
    ∃ c, generateFromSource ⟨"src", fun _ => .ok ["a b.psd"]⟩ portraitSource
        (.default "assetman" "src") = .ok c ∧
      Ninja.read? c.graph.render =
        some { rules := c.graph.rules, edges := c.graph.edges, defaults := c.graph.defaults } := by
  obtain ⟨c, hc, -⟩ := exists_generated_portrait
  exact ⟨c, hc, (generated_readable hc).1⟩

end AssetPipeline
