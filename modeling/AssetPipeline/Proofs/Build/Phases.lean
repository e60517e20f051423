import AssetPipeline.Proofs.Build.Cycles

/-! The two phases of a compilation. The first does the same whether or not builders over the build
directory are declared, wherever they stand; the second adds to what the first has left and takes in
nothing that it has made itself. -/

namespace AssetPipeline

namespace Declarations

/-- The declarations without the builders over the build directory. -/
def overSources (d : Declarations) : Declarations :=
  { d with
    singles := d.singles.filter (! ·.buildRelative)
    bundles := d.bundles.filter (! ·.buildRelative) }

variable {d : Declarations}

theorem builders_overSources (d : Declarations) : d.overSources.builders = d.sourceBuilders := by
  rw [builders, sourceBuilders, builders, List.filter_append, List.filter_map, List.filter_map]
  rfl

theorem sourceBuilders_overSources (d : Declarations) :
    d.overSources.sourceBuilders = d.sourceBuilders := by
  rw [sourceBuilders, builders_overSources, sourceBuilders, List.filter_filter]
  simp only [Bool.and_self]

theorem buildBuilders_overSources (d : Declarations) : d.overSources.buildBuilders = [] := by
  rw [buildBuilders, builders_overSources, sourceBuilders, List.filter_filter]
  simp

end Declarations

variable {sources : Sources} {d : Declarations} {c : Compiled}

/-- A compilation without the builders over the build directory ends where the first phase does. -/
theorem compile_overSources {graph : BuildGraph} {mid : Compiled}
    (hrules : d.rules.foldlM Compiled.addRule {} = .ok graph) (hsound : ∀ b ∈ d.builders, b.Sound graph)
    (hmid : d.sourceBuilders.foldlM (Compiled.addSourceBuilder sources) { graph } = .ok mid) :
    compile sources d.overSources = .ok mid := by
  refine compile_eq_ok_iff.mpr ⟨graph, hrules, fun b hb => ?_, mid, ?_, ?_⟩
  · rw [d.builders_overSources] at hb
    exact hsound b (List.mem_of_mem_filter hb)
  · rw [d.sourceBuilders_overSources]
    exact hmid
  · rw [d.buildBuilders_overSources]
    rfl

/-- What the builders over the build directory see is what the compilation without them makes. -/
theorem exists_compile_overSources (h : compile sources d = .ok c) :
    ∃ mid first second, compile sources d.overSources = .ok mid ∧ d.ExpandsTo sources first second ∧
      mid.outputs = first.flatten.flatMap (·.outputs) ∧ c.graph.edges = first.flatten ++ second.flatten := by
  obtain ⟨graph, mid, first, second, hrules, hsound, hmid, hexpands, hadds, -⟩ := compile_phases h
  obtain ⟨first', second', hexpands', hedges, -⟩ := compile_edges h
  obtain ⟨rfl, rfl⟩ := hexpands.unique hexpands'
  exact ⟨mid, first, second, compile_overSources hrules hsound hmid, hexpands, hadds.outputs_eq, hedges⟩

/-- Declarations that compile also compile without their builders over the build directory. The edges,
outputs and warnings then are the first ones of all, and the source patterns are all of them. What the
edges of the builders over the build directory take in is made by edges of the others, and by none of
their own. -/
theorem compile_second_phase (h : compile sources d = .ok c) :
    ∃ first second, d.ExpandsTo sources first second ∧
      c.graph.edges = first.flatten ++ second.flatten ∧
      (∃ mid, compile sources d.overSources = .ok mid ∧ mid.graph.edges = first.flatten ∧
        mid.graph.edges <+: c.graph.edges ∧ mid.outputs <+: c.outputs ∧
        mid.warnings <+: c.warnings ∧ mid.sourcePatterns = c.sourcePatterns) ∧
      ∀ e ∈ second.flatten, ∀ path ∈ e.inputs, (∃ e' ∈ first.flatten, path ∈ e'.outputs) ∧
        ∀ e' ∈ second.flatten, path ∉ e'.outputs := by
  obtain ⟨graph, mid, first, second, hrules, hsound, hmid, hexpands, hadds, hadds'⟩ := compile_phases h
  have hcompile := compile_overSources hrules hsound hmid
  have hfirst : mid.graph.edges = first.flatten := by
    obtain ⟨-, hgraph⟩ := Compiled.foldlM_addRule_eq_ok hrules
    rw [hadds.edges_eq, BuildGraph.foldlM_addRule_eq_ok hgraph, List.nil_append]
  have hedges : c.graph.edges = first.flatten ++ second.flatten := by
    rw [hadds'.edges_eq, hfirst]
  have hpatterns : mid.sourcePatterns = c.sourcePatterns := by
    rw [compile_sourcePatterns hcompile, compile_sourcePatterns h, d.sourceBuilders_overSources]
  refine ⟨first, second, hexpands, hedges, ⟨mid, hcompile, hfirst, ?_, ?_, ?_, hpatterns⟩, ?_⟩
  · rw [hadds'.edges_eq]
    exact List.prefix_append _ _
  · rw [hadds'.outputs_eq]
    exact List.prefix_append _ _
  · rw [hadds'.warnings_eq]
    exact List.prefix_append _ _
  · intro e he path hpath
    obtain ⟨maker, hmaker, hmade⟩ := hexpands.exists_of_mem_second he hpath
    refine ⟨⟨maker, hmaker, hmade⟩, fun e' he' hmade' => ?_⟩
    exact (compile_wellFormed h).disjoint_outputs hedges (List.mem_flatMap.mpr ⟨maker, hmaker, hmade⟩)
      (List.mem_flatMap.mpr ⟨e', he', hmade'⟩)

/-- The atlas declarations with one more bundle, which matches what the atlas bundle makes as well. -/
def galleryDeclarations : Declarations :=
  { atlasDeclarations with
    bundles := { pattern := "**/*.png", buildRelative := true, targets := ["index.html"],
                 rule := some "convert" } :: atlasDeclarations.bundles }

theorem compile_second_phase_gallery :
    ∃ c, compile atlasSources galleryDeclarations = .ok c ∧
      ∃ mid, compile atlasSources galleryDeclarations.overSources = .ok mid ∧
        mid.outputs = ["art/hero.png"] ∧ mid.outputs <+: c.outputs := by
  have hone : ((compile atlasSources galleryDeclarations).toOption.map (·.outputs)) =
      some ["art/hero.png", "index.html", "atlas.png"] := by decide +kernel
  obtain ⟨c, hc, -⟩ := exists_ok_of_toOption_map hone
  obtain ⟨first, second, -, -, ⟨mid, hmid, -, -, hprefix, -⟩, -⟩ := compile_second_phase hc
  have houtputs : ((compile atlasSources galleryDeclarations.overSources).toOption.map (·.outputs)) =
      some ["art/hero.png"] := by decide +kernel
  obtain ⟨mid', hmid', houtputs⟩ := exists_ok_of_toOption_map houtputs
  rw [hmid] at hmid'
  cases hmid'
  exact ⟨c, hc, mid, hmid, houtputs, hprefix⟩

end AssetPipeline
