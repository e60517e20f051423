import AssetPipeline.Proofs.Build.Defaults
import AssetPipeline.Proofs.Build.Phases
import AssetPipeline.Proofs.Build.Validation

/-! Patterns that cannot be read. A pattern is read where it is used: over the source directory once, and
over the build directory for each output of the first phase. So a pattern over the build directory is not
read where the first phase makes nothing, and nothing is made at all then. -/

namespace AssetPipeline

variable {sources : Sources} {d : Declarations} {c : Compiled} {b : Builder} {graph : BuildGraph}

theorem Glob.exists_parse_of_matches {path pattern : String} {answer : Bool}
    (h : Glob.matches path pattern = .ok answer) : ∃ glob, Glob.parse pattern = .ok glob := by
  obtain ⟨glob, hglob, -⟩ := bind_eq_ok_iff.mp h
  exact ⟨glob, mapError_eq_ok_iff.mp hglob⟩

theorem Glob.parse_eq_error_of_matches (path : String) {pattern : String} {fault : Glob.Fault}
    (h : Glob.matches path pattern = .error (.invalidPattern pattern fault)) :
    Glob.parse pattern = .error fault := by
  rcases bind_eq_error_iff.mp h with h | ⟨glob, -, h⟩
  · obtain ⟨fault', hparse, hfault⟩ := mapError_eq_error_iff.mp h
    cases hfault
    exact hparse
  · cases h

theorem Sources.exists_parse_of_resolve {pattern : String} {files : List String}
    (h : sources.resolve pattern = .ok files) : ∃ glob, Glob.parse pattern = .ok glob := by
  obtain ⟨glob, hglob, -⟩ := bind_eq_ok_iff.mp h
  exact ⟨glob, mapError_eq_ok_iff.mp hglob⟩

theorem Declarations.mem_sourceBuilders_or (hb : b ∈ d.builders) :
    b ∈ d.sourceBuilders ∨ b ∈ d.buildBuilders ∧ b.buildRelative = true := by
  cases hrelative : b.buildRelative with
  | false => exact Or.inl (List.mem_filter.mpr ⟨hb, by rw [hrelative]; rfl⟩)
  | true => exact Or.inr ⟨List.mem_filter.mpr ⟨hb, hrelative⟩, rfl⟩

namespace Declarations.ExpandsTo

variable {first second : List (List Edge)}

/-- A builder whose pattern cannot be read is one over the build directory, and there is nothing for it to
match. -/
theorem outputs_eq_nil_of_malformed (h : d.ExpandsTo sources first second) (hb : b ∈ d.builders)
    {fault : Glob.Fault} (hmalformed : Glob.parse b.pattern = .error fault) :
    b.buildRelative = true ∧ first.flatten.flatMap (·.outputs) = [] := by
  have hunread : ¬ ∃ glob, Glob.parse b.pattern = .ok glob := by
    rintro ⟨glob, hglob⟩
    rw [hmalformed] at hglob
    cases hglob
  rcases mem_sourceBuilders_or hb with hb | ⟨hb, hrelative⟩
  · obtain ⟨edges, -, files, hfiles, -⟩ := exists_of_forall₂ h.source.flip hb
    exact absurd (Sources.exists_parse_of_resolve hfiles) hunread
  · obtain ⟨edges, -, files, ⟨keeps, hkeeps, -⟩, -⟩ := exists_of_forall₂ h.build.flip hb
    refine ⟨hrelative, List.eq_nil_iff_forall_not_mem.mpr fun path hpath => ?_⟩
    exact hunread (Glob.exists_parse_of_matches (hkeeps path hpath))

end Declarations.ExpandsTo

namespace Compiled

theorem addBuildBuilder_nil (c : Compiled) (b : Builder) :
    addBuildBuilder [] c b = .ok { c with warnings := c.warnings ++ b.warnings } := by
  have hedges : b.edges "." [] = [] := by
    cases b with
    | single s => rfl
    | bundle b => exact if_pos (Or.inr rfl)
  refine addBuildBuilder_eq_ok_iff.mpr ⟨[], rfl, ?_⟩
  rw [addBuilder, hedges]
  rfl

/-- Builders over the build directory that see nothing all succeed, whatever their patterns are. -/
theorem exists_foldlM_addBuildBuilder_nil (builders : List Builder) (c : Compiled) :
    ∃ c', builders.foldlM (addBuildBuilder []) c = .ok c' := by
  induction builders generalizing c with
  | nil => exact ⟨c, rfl⟩
  | cons b builders ih =>
      obtain ⟨c', h⟩ := ih { c with warnings := c.warnings ++ b.warnings }
      exact ⟨c', bind_eq_ok_iff.mpr ⟨_, addBuildBuilder_nil c b, h⟩⟩

end Compiled

/-- Where the builders over the source directory make nothing, declarations compile if only the checks find
nothing wrong with them. -/
theorem exists_compile_of_overSources {mid : Compiled} (hchecked : d.checked = .ok graph)
    (hmid : compile sources d.overSources = .ok mid) (hnone : mid.outputs = []) :
    ∃ c, compile sources d = .ok c := by
  obtain ⟨hrules, hsound⟩ := Declarations.checked_eq_ok_iff.mp hchecked
  obtain ⟨graph', hrules', -, first, hfirst, hsecond⟩ := compile_eq_ok_iff.mp hmid
  cases hrules.symm.trans hrules'
  rw [d.buildBuilders_overSources] at hsecond
  cases hsecond
  rw [d.sourceBuilders_overSources] at hfirst
  obtain ⟨c, hc⟩ := Compiled.exists_foldlM_addBuildBuilder_nil d.buildBuilders mid
  rw [← hnone] at hc
  exact ⟨c, compile_eq_ok_iff.mpr ⟨graph, hrules, hsound, mid, hfirst, hc⟩⟩

/-- Declarations with a pattern that cannot be read compile exactly if the checks find nothing wrong with
them, the pattern is one over the build directory, and the builders over the source directory compile and
make nothing. Then no builder makes anything. -/
theorem compile_malformed_iff (sources : Sources) {fault : Glob.Fault} (hb : b ∈ d.builders)
    (hmalformed : Glob.parse b.pattern = .error fault) :
    ((∃ c, compile sources d = .ok c) ↔ (∃ graph, d.checked = .ok graph) ∧ b.buildRelative = true ∧
      ∃ mid, compile sources d.overSources = .ok mid ∧ mid.outputs = []) ∧
    ∀ c, compile sources d = .ok c → c.graph.edges = [] := by
  constructor
  · constructor
    · rintro ⟨c, h⟩
      obtain ⟨mid, first, second, hmid, hexpands, hmade, -⟩ := exists_compile_overSources h
      obtain ⟨hrelative, hnone⟩ := hexpands.outputs_eq_nil_of_malformed hb hmalformed
      rw [Declarations.compile_eq] at h
      obtain ⟨graph, hchecked, -⟩ := bind_eq_ok_iff.mp h
      exact ⟨⟨graph, hchecked⟩, hrelative, mid, hmid, hmade.trans hnone⟩
    · rintro ⟨⟨graph, hchecked⟩, -, mid, hmid, hnone⟩
      exact exists_compile_of_overSources hchecked hmid hnone
  · intro c h
    obtain ⟨first, second, hexpands, hedges, -⟩ := compile_edges h
    obtain ⟨-, hnone⟩ := hexpands.outputs_eq_nil_of_malformed hb hmalformed
    rw [List.flatMap_eq_nil_iff] at hnone
    have hfirst : first.flatten = [] := by
      rw [List.eq_nil_iff_forall_not_mem]
      intro e he
      have hmem : e ∈ c.graph.edges := hedges ▸ List.mem_append_left _ he
      exact ((compile_wellFormed h).edge_sound e hmem).outputs_ne_nil (hnone e he)
    rw [hedges, hexpands.second_eq_nil hfirst, hfirst]
    rfl

/-- A contact sheet of pictures by a pattern that opens a class and does not close it. -/
def unclosedDeclarations : Declarations where
  rules := [{ name := "convert", command := some "tool $in $out" }]
  singles := [{ pattern := "**/*.psd", target := some "$filename.png", rule := some "convert" }]
  bundles := [{ pattern := "art/[a-z", buildRelative := true, targets := ["sheet.png"],
                rule := some "convert" }]

/-- A source directory without files. -/
def bareSources : Sources := ⟨"src", fun _ => .ok []⟩

theorem compile_malformed_iff_unclosed : Glob.parse "art/[a-z" = .error .unclosedClass ∧
    ∃ c, compile bareSources unclosedDeclarations = .ok c ∧ c.graph.edges = [] := by
  have hparse : Glob.parse "art/[a-z" = .error .unclosedClass :=
    Glob.parse_eq_error_of_matches "" (by decide +kernel)
  have hmem : .bundle { pattern := "art/[a-z", buildRelative := true, targets := ["sheet.png"],
                        rule := some "convert" } ∈ unclosedDeclarations.builders := by decide
  obtain ⟨hiff, hnone⟩ := compile_malformed_iff bareSources hmem hparse
  have hchecked : ∃ graph, unclosedDeclarations.checked = .ok graph := by
    have hrules : (unclosedDeclarations.checked.toOption.map (·.rules.length)) = some 1 := by decide +kernel
    obtain ⟨graph, hgraph, -⟩ := exists_ok_of_toOption_map hrules
    exact ⟨graph, hgraph⟩
  have hmid : ∃ mid, compile bareSources unclosedDeclarations.overSources = .ok mid ∧ mid.outputs = [] := by
    have hmade : ((compile bareSources unclosedDeclarations.overSources).toOption.map (·.outputs)) =
        some [] := by decide +kernel
    exact exists_ok_of_toOption_map hmade
  obtain ⟨c, hc⟩ := hiff.mpr ⟨hchecked, rfl, hmid⟩
  exact ⟨hparse, c, hc, hnone c hc⟩

/-- Whether a pattern over the build directory is read depends on the files. -/
theorem compile_malformed_unnoticed : Glob.parse "art/[a-z" = .error .unclosedClass ∧
    (∃ c, compile bareSources unclosedDeclarations = .ok c) ∧
    compile atlasSources unclosedDeclarations = .error (.invalidPattern "art/[a-z" .unclosedClass) := by
  have hcompile : ((compile bareSources unclosedDeclarations).toOption.map (·.outputs)) = some [] := by
    decide +kernel
  obtain ⟨c, hc, -⟩ := exists_ok_of_toOption_map hcompile
  have hunread : compile atlasSources unclosedDeclarations =
      .error (.invalidPattern "art/[a-z" .unclosedClass) := by decide +kernel
  exact ⟨Glob.parse_eq_error_of_matches "" (by decide +kernel), ⟨c, hc⟩, hunread⟩

end AssetPipeline
