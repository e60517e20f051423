import AssetPipeline.Proofs.Build.Cycles

/-! What is made when the executor is not told what to make. The default targets of a generated build
file are the outputs of the builders' edges. Since no output has two edges, none of them is a
bookkeeping path, whatever names settings and targets choose. Only where builders make nothing the build
file itself takes their place. -/

namespace AssetPipeline

namespace BuildGraph

variable {g : BuildGraph}

/-- What the executor makes when it is not told what: the default targets, or where there are none all
outputs that no edge takes in. -/
def requested (g : BuildGraph) : List String :=
  if g.defaults = [] then
    (g.edges.flatMap (·.outputs)).filter fun path => ! (g.edges.flatMap (·.inputs)).contains path
  else g.defaults

/-- An output has one edge, which stands at one place among the edges. -/
theorem WellFormed.existsUnique_position (h : g.WellFormed) {path : String}
    (hpath : ∃ e ∈ g.edges, path ∈ e.outputs) :
    ∃! i : Nat, ∃ e, g.edges[i]? = some e ∧ path ∈ e.outputs := by
  obtain ⟨e, he, hpath⟩ := hpath
  obtain ⟨i, hi⟩ := List.mem_iff_getElem?.mp he
  refine ⟨i, ⟨e, hi, hpath⟩, ?_⟩
  rintro j ⟨e', hj, hpath'⟩
  exact h.indexed.position_unique hj hi hpath' hpath

end BuildGraph

theorem Builder.Makes.eq_nil_of_no_files {b : Builder} {root : String} {edges : List Edge}
    (h : b.Makes root [] edges) : edges = [] := by
  cases h with
  | single h => exact List.forall₂_nil_left_iff.mp h
  | bundle _ _ hfiles => exact absurd rfl hfiles
  | idle => rfl

/-- Builders over the build directory make nothing where those over the source directory make
nothing. -/
theorem Declarations.ExpandsTo.second_eq_nil {d : Declarations} {sources : Sources}
    {first second : List (List Edge)} (h : d.ExpandsTo sources first second)
    (hfirst : first.flatten = []) : second.flatten = [] := by
  rw [List.flatten_eq_nil_iff]
  intro edges hedges
  obtain ⟨b, -, files, ⟨keeps, -, hfiles⟩, hmakes⟩ := exists_of_forall₂ h.build hedges
  rw [hfirst, List.flatMap_nil, List.filter_nil] at hfiles
  subst hfiles
  exact hmakes.eq_nil_of_no_files

/-- Where builders make an edge there are patterns to list files for. -/
theorem compile_sourcePatterns_ne_nil {sources : Sources} {d : Declarations} {c : Compiled}
    (h : compile sources d = .ok c) (hedges : c.graph.edges ≠ []) : c.sourcePatterns ≠ [] := by
  obtain ⟨first, second, hexpands, heq, -⟩ := compile_edges h
  intro hpatterns
  rw [compile_sourcePatterns h] at hpatterns
  have hbuilders : d.sourceBuilders = [] := by
    rw [List.eq_nil_iff_forall_not_mem]
    intro b hb
    have hmem : b.pattern ∈ (d.sourceBuilders.map Builder.pattern).eraseDups :=
      List.mem_eraseDups.mpr (List.mem_map_of_mem hb)
    rw [hpatterns] at hmem
    cases hmem
  have hfirst : first = [] := by
    have hsource := hexpands.source
    rw [hbuilders] at hsource
    exact List.forall₂_nil_left_iff.mp hsource
  have hnone : first.flatten = [] := by
    rw [hfirst, List.flatten_nil]
  rw [heq, hnone, hexpands.second_eq_nil hnone] at hedges
  exact hedges rfl

/-- Every edge has an output, so there are outputs exactly where there are edges. -/
theorem compile_outputs_eq_nil_iff {sources : Sources} {d : Declarations} {c : Compiled}
    (h : compile sources d = .ok c) : c.outputs = [] ↔ c.graph.edges = [] := by
  obtain ⟨first, second, -, -, houtputs⟩ := compile_edges h
  rw [houtputs, List.flatMap_eq_nil_iff]
  constructor
  · intro hnone
    rw [List.eq_nil_iff_forall_not_mem]
    intro e he
    exact ((compile_wellFormed h).edge_sound e he).outputs_ne_nil (hnone e he)
  · intro hnone e he
    rw [hnone] at he
    cases he

namespace Regeneration

variable {o : RegenOptions} {sourcePatterns : List String}

/-- The paths that bookkeeping edges make where there are patterns to list files for. -/
theorem outputs_edges (hpatterns : sourcePatterns ≠ []) :
    (edges o sourcePatterns).flatMap (·.outputs) = [o.dirtyMarker, o.fileList, o.graphFile, "clean"] := by
  simp [edges_eq, fileListEdge?, hpatterns, dirtyEdge, generateEdge, cleanEdge]

end Regeneration

variable {sources : Sources} {source : String} {o : RegenOptions} {c : Compiled}

/-- The default targets of a generated graph are outputs, each of one edge alone. If builders make edges,
the default targets are the outputs of these, in their order, and no path of the bookkeeping is among
them; if builders make none, the build file is the only one. So it is these that are made when the
executor is not told what to make. -/
theorem generated_defaults (h : generateFromSource sources source o = .ok c) :
    ∃ d made, Script.evaluate source = .ok d ∧
      (∃ first second, d.ExpandsTo sources first second ∧ made = first.flatten ++ second.flatten) ∧
      c.graph.edges = made ++ Regeneration.edges o c.sourcePatterns ∧
      c.graph.defaults ≠ [] ∧ c.graph.requested = c.graph.defaults ∧
      (∀ path ∈ c.graph.defaults, ∃! i : Nat, ∃ e, c.graph.edges[i]? = some e ∧ path ∈ e.outputs) ∧
      (made ≠ [] → c.graph.defaults = made.flatMap (·.outputs) ∧
        ∀ path ∈ ["clean", o.dirtyMarker, o.fileList, o.graphFile], path ∉ c.graph.defaults) ∧
      (made = [] → c.graph.defaults = [o.graphFile] ∧
        c.graph.producer? o.graphFile = some (Regeneration.generateEdge o c.sourcePatterns)) := by
  obtain ⟨d, compiled, hd, hcompiled, hwired⟩ := generateFromSource_wired h
  obtain ⟨first, second, hexpands, hedges, houtputs⟩ := compile_edges hcompiled
  have hall := hwired.edges_eq
  rw [← hwired.sourcePatterns_eq] at hall
  have hnil := compile_outputs_eq_nil_iff hcompiled
  have hdefaults : c.graph.defaults ≠ [] := by
    rw [hwired.defaults_eq, Regeneration.defaults]
    split_ifs with hempty
    · exact List.cons_ne_nil _ _
    · exact hempty
  refine ⟨d, compiled.graph.edges, hd, ⟨first, second, hexpands, hedges⟩, hall, hdefaults,
    if_neg hdefaults, ?_, ?_, ?_⟩
  · intro path hpath
    exact hwired.wellFormed.existsUnique_position (exists_edge_of_mem_defaults h hpath)
  · intro hmade
    have hpatterns : c.sourcePatterns ≠ [] := by
      rw [hwired.sourcePatterns_eq]
      exact compile_sourcePatterns_ne_nil hcompiled hmade
    have hmadeDefaults : c.graph.defaults = compiled.graph.edges.flatMap (·.outputs) := by
      rw [hwired.defaults_eq, Regeneration.defaults, if_neg (hnil.not.mpr hmade), houtputs]
    refine ⟨hmadeDefaults, fun path hpath hdefault => ?_⟩
    have hbookkeeping : path ∈ (Regeneration.edges o c.sourcePatterns).flatMap (·.outputs) := by
      rw [Regeneration.outputs_edges hpatterns]
      simp only [List.mem_cons, List.not_mem_nil, or_false] at hpath ⊢
      tauto
    rw [hmadeDefaults] at hdefault
    exact hwired.wellFormed.disjoint_outputs hall hdefault hbookkeeping
  · intro hmade
    refine ⟨?_, ?_⟩
    · rw [hwired.defaults_eq, Regeneration.defaults, if_pos (hnil.mpr hmade)]
    · rw [hwired.wellFormed.indexed.producer?_eq_some_iff_mem, hall]
      refine ⟨List.mem_append_right _ ?_, List.mem_singleton_self _⟩
      exact Regeneration.mem_edges_iff.mpr (Or.inr (Or.inr (Or.inl rfl)))

theorem generated_defaults_portrait :
    ∃ c, generateFromSource ⟨"src", fun _ => .ok ["a b.psd"]⟩ portraitSource
        (.default "assetman" "src") = .ok c ∧ c.graph.requested = ["a b:$.png"] ∧
      ∀ path ∈ ["clean", ".dirty", ".src_files", "build.ninja"], path ∉ c.graph.defaults := by
  obtain ⟨c, hc, hdefaults, -⟩ := exists_generated_portrait
  obtain ⟨d, made, -, -, -, -, hrequested, -, hmade, hnone⟩ := generated_defaults hc
  refine ⟨c, hc, hrequested.trans hdefaults, ?_⟩
  by_cases hnil : made = []
  · have hgraphFile := (hnone hnil).1
    rw [hdefaults] at hgraphFile
    exact absurd hgraphFile (by decide)
  · exact (hmade hnil).2

end AssetPipeline
