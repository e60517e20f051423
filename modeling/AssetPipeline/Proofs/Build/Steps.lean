import AssetPipeline.Build.Compilation
import AssetPipeline.Proofs.Graph.WellFormed

/-! What each step of a compilation does. A step that succeeds adds the edges of one builder to the
graph and their outputs to the outputs; it leaves what was there before. -/

namespace AssetPipeline

/-- A builder that passes all checks made before the first pattern is resolved. -/
structure Builder.Sound (g : BuildGraph) (b : Builder) : Prop where
  rule_known : ∃ rule, b.rule = some rule ∧ g.hasRule rule = true
  pattern_oneLine : OneLine b.pattern
  target_oneLine : ∀ target ∈ b.targets, OneLine target
  key_valid : ∀ a ∈ b.assignments.entries, Ninja.isValidName a.1 = true
  value_oneLine : ∀ a ∈ b.assignments.entries, OneLine a.2
  has_target : ∀ s, b = .single s → ∃ target, s.target = some target

namespace Builder

variable {g : BuildGraph} {b : Builder}

theorem variableFault?_eq_none_iff {verb pattern : String} {entries : List (String × String)} :
    variableFault? verb pattern entries = none ↔
      ∀ a ∈ entries, Ninja.isValidName a.1 = true ∧ OneLine a.2 := by
  induction entries with
  | nil => simp [variableFault?]
  | cons a entries ih =>
      rw [variableFault?, List.forall_mem_cons, ← ih]
      by_cases hkey : Ninja.isValidName a.1 = true <;>
        by_cases hvalue : OneLine a.2 <;>
        simp [hkey, hvalue, Ninja.hasLineBreak_iff]

theorem fault?_eq_none_iff : b.fault? g = none ↔ b.Sound g := by
  have htargets : b.targets.any Ninja.hasLineBreak = true ↔
      ¬ ∀ target ∈ b.targets, OneLine target := by
    simp only [List.any_eq_true, Ninja.hasLineBreak_iff]
    push Not
    rfl
  rw [fault?.eq_def]
  constructor
  · intro h
    cases hrule : b.rule with
    | none => simp [hrule] at h
    | some rule =>
        simp only [hrule] at h
        split_ifs at h with hknown hpattern htarget
        rw [Ninja.hasLineBreak_iff, not_not] at hpattern
        rw [htargets, not_not] at htarget
        split at h
        · cases h
        · rename_i hvariables
          rw [variableFault?_eq_none_iff] at hvariables
          refine ⟨⟨rule, hrule, hknown⟩, hpattern, htarget, fun a ha => (hvariables a ha).1,
            fun a ha => (hvariables a ha).2, ?_⟩
          rintro s rfl
          exact Option.ne_none_iff_exists'.mp fun hnone => by simp [hnone] at h
  · rintro ⟨⟨rule, hrule, hknown⟩, hpattern, htarget, hkey, hvalue, hsingle⟩
    have hvariables : variableFault? b.verb b.pattern b.assignments.entries = none :=
      variableFault?_eq_none_iff.mpr fun a ha => ⟨hkey a ha, hvalue a ha⟩
    simp only [hrule]
    rw [if_neg (not_not.mpr hknown), if_neg (Ninja.hasLineBreak_iff.not.mpr (not_not.mpr hpattern)),
      if_neg (htargets.not.mpr (not_not.mpr htarget)), hvariables]
    cases b with
    | single s =>
        obtain ⟨target, htarget⟩ := hsingle s rfl
        simp [htarget]
    | bundle b => rfl

end Builder

namespace Compiled

variable {c c' : Compiled} {b : Builder} {root : String} {files : List String}

theorem foldlM_addEdge (b : Builder) (edges : List Edge) (c : Compiled) :
    edges.foldlM (addEdge b) c =
      ((edges.foldlM BuildGraph.addEdge c.graph).mapError (.edge b.verb b.pattern)).map fun graph =>
        { c with graph, outputs := c.outputs ++ edges.flatMap (·.outputs) } := by
  induction edges generalizing c with
  | nil => simp [Except.mapError, Except.map, pure, Except.pure]
  | cons e edges ih =>
      rw [List.foldlM_cons, List.foldlM_cons, addEdge]
      cases c.graph.addEdge e with
      | error error => rfl
      | ok graph =>
          refine (ih { c with graph, outputs := c.outputs ++ e.outputs }).trans ?_
          simp only [List.flatMap_cons, List.append_assoc]
          rfl

/-- Adding a builder adds its edges to the graph, one after another. -/
theorem addBuilder_eq_ok_iff :
    addBuilder root files c b = .ok c' ↔
      ∃ graph, (b.edges root files).foldlM BuildGraph.addEdge c.graph = .ok graph ∧
        c' = { c with
          graph
          outputs := c.outputs ++ (b.edges root files).flatMap (·.outputs)
          warnings := c.warnings ++ b.warnings } := by
  rw [addBuilder, foldlM_addEdge]
  cases (b.edges root files).foldlM BuildGraph.addEdge c.graph with
  | error error => simp [Except.mapError, Except.map]
  | ok graph => simp [Except.mapError, Except.map, eq_comm]

/-- Patterns seen so far, with one more. -/
def addPattern (patterns : List String) (pattern : String) : List String :=
  if patterns.contains pattern then patterns else patterns ++ [pattern]

theorem addSourceBuilder_eq_ok_iff {sources : Sources} :
    addSourceBuilder sources c b = .ok c' ↔
      ∃ files, sources.resolve b.pattern = .ok files ∧
        addBuilder sources.root files
          { c with sourcePatterns := addPattern c.sourcePatterns b.pattern } b = .ok c' :=
  bind_eq_ok_iff

theorem addBuildBuilder_eq_ok_iff {available : List String} :
    addBuildBuilder available c b = .ok c' ↔
      ∃ files, available.filterM (Glob.matches · b.pattern) = .ok files ∧
        addBuilder "." files c b = .ok c' :=
  bind_eq_ok_iff

/-- `c'` is `c` with more edges, their outputs, and more warnings. -/
structure Adds (c : Compiled) (edges : List Edge) (warnings : List String) (c' : Compiled) : Prop where
  rules_eq : c'.graph.rules = c.graph.rules
  edges_eq : c'.graph.edges = c.graph.edges ++ edges
  defaults_eq : c'.graph.defaults = c.graph.defaults
  outputs_eq : c'.outputs = c.outputs ++ edges.flatMap (·.outputs)
  warnings_eq : c'.warnings = c.warnings ++ warnings
  wellFormed : c.graph.WellFormed → c'.graph.WellFormed

theorem Adds.refl (c : Compiled) : c.Adds [] [] c where
  rules_eq := rfl
  edges_eq := by simp
  defaults_eq := rfl
  outputs_eq := by simp
  warnings_eq := by simp
  wellFormed := id

theorem Adds.trans {c'' : Compiled} {edges edges' : List Edge} {warnings warnings' : List String}
    (h : c.Adds edges warnings c') (h' : c'.Adds edges' warnings' c'') :
    c.Adds (edges ++ edges') (warnings ++ warnings') c'' where
  rules_eq := h'.rules_eq.trans h.rules_eq
  edges_eq := by rw [h'.edges_eq, h.edges_eq, List.append_assoc]
  defaults_eq := h'.defaults_eq.trans h.defaults_eq
  outputs_eq := by rw [h'.outputs_eq, h.outputs_eq, List.flatMap_append, List.append_assoc]
  warnings_eq := by rw [h'.warnings_eq, h.warnings_eq, List.append_assoc]
  wellFormed := h'.wellFormed ∘ h.wellFormed

theorem adds_addBuilder (h : addBuilder root files c b = .ok c') :
    c.Adds (b.edges root files) b.warnings c' := by
  obtain ⟨graph, hgraph, rfl⟩ := addBuilder_eq_ok_iff.mp h
  obtain ⟨hrules, hedges, hdefaults⟩ := BuildGraph.foldlM_addEdge_eq_ok hgraph
  exact ⟨hrules, hedges, hdefaults, rfl, rfl, fun hg => hg.foldlM_addEdge hgraph⟩

/-- Builders one after another add their edges one after another. -/
theorem adds_foldlM {step : Compiled → Builder → Except BuildFault Compiled}
    {R : Builder → List Edge → Prop} {builders : List Builder}
    (hstep : ∀ b ∈ builders, ∀ c c', step c b = .ok c' →
      ∃ edges, R b edges ∧ c.Adds edges b.warnings c')
    (h : builders.foldlM step c = .ok c') :
    ∃ edges, List.Forall₂ R builders edges ∧
      c.Adds edges.flatten (builders.flatMap Builder.warnings) c' := by
  induction builders generalizing c with
  | nil =>
      cases h
      exact ⟨[], .nil, .refl _⟩
  | cons b builders ih =>
      rw [List.forall_mem_cons] at hstep
      obtain ⟨next, hb, h⟩ := bind_eq_ok_iff.mp h
      obtain ⟨edges, hedges, hadds⟩ := hstep.1 c next hb
      obtain ⟨rest, hrest, hadds'⟩ := ih hstep.2 h
      exact ⟨edges :: rest, .cons hedges hrest, hadds.trans hadds'⟩

theorem addRule_eq_ok_iff {g g' : BuildGraph} {r : RuleDecl} :
    addRule g r = .ok g' ↔ r.fault? = none ∧ g.addRule r.toRule = .ok g' := by
  rw [addRule]
  cases r.fault? with
  | some fault => simp
  | none => simp [mapError_eq_ok_iff]

/-- Declaring rules adds them to the graph one after another, if nothing is wrong with any of them. -/
theorem foldlM_addRule_eq_ok_iff {rules : List RuleDecl} {g g' : BuildGraph} :
    rules.foldlM addRule g = .ok g' ↔ (∀ r ∈ rules, r.fault? = none) ∧
      (rules.map RuleDecl.toRule).foldlM BuildGraph.addRule g = .ok g' := by
  induction rules generalizing g with
  | nil =>
      constructor
      · intro h
        cases h
        exact ⟨nofun, rfl⟩
      · rintro ⟨-, h⟩
        cases h
        rfl
  | cons r rules ih =>
      rw [List.foldlM_cons, bind_eq_ok_iff, List.forall_mem_cons, List.map_cons, List.foldlM_cons,
        bind_eq_ok_iff]
      simp only [addRule_eq_ok_iff, ih]
      constructor
      · rintro ⟨next, ⟨hfault, hadd⟩, hfaults, h⟩
        exact ⟨⟨hfault, hfaults⟩, next, hadd, h⟩
      · rintro ⟨⟨hfault, hfaults⟩, next, hadd, h⟩
        exact ⟨next, ⟨hfault, hadd⟩, hfaults, h⟩

theorem foldlM_addRule_eq_ok {rules : List RuleDecl} {g g' : BuildGraph}
    (h : rules.foldlM addRule g = .ok g') :
    (∀ r ∈ rules, r.fault? = none) ∧
      (rules.map RuleDecl.toRule).foldlM BuildGraph.addRule g = .ok g' :=
  foldlM_addRule_eq_ok_iff.mp h

end Compiled

/-- Builders over the source directory. -/
def Declarations.sourceBuilders (d : Declarations) : List Builder :=
  d.builders.filter (! ·.buildRelative)

/-- Builders over the build directory. -/
def Declarations.buildBuilders (d : Declarations) : List Builder :=
  d.builders.filter (·.buildRelative)

theorem compile_eq_ok_iff {sources : Sources} {d : Declarations} {c : Compiled} :
    compile sources d = .ok c ↔
      ∃ graph, d.rules.foldlM Compiled.addRule {} = .ok graph ∧ (∀ b ∈ d.builders, b.Sound graph) ∧
        ∃ first, d.sourceBuilders.foldlM (Compiled.addSourceBuilder sources) { graph } = .ok first ∧
          d.buildBuilders.foldlM (Compiled.addBuildBuilder first.outputs) first = .ok c := by
  rw [compile, bind_eq_ok_iff]
  refine exists_congr fun graph => and_congr_right fun _ => ?_
  have hfaults : (∀ b ∈ d.builders, b.Sound graph) ↔
      d.builders.findSome? (Builder.fault? graph) = none := by
    simp only [List.findSome?_eq_none_iff, Builder.fault?_eq_none_iff]
  rw [hfaults]
  cases d.builders.findSome? (Builder.fault? graph) with
  | some fault =>
      constructor
      · intro h
        cases h
      · rintro ⟨h, -⟩
        cases h
  | none => exact (bind_eq_ok_iff.trans (by simp [Declarations.sourceBuilders, Declarations.buildBuilders]))

end AssetPipeline
