import AssetPipeline.Proofs.Build.Generated

/-! What the checks made before the first pattern is resolved leave for later. They find all that is
wrong with the declarations, whatever files there are; what an edge or a bookkeeping rule is refused for
after that lies in paths or, for the bookkeeping, in the texts of its options. -/

namespace AssetPipeline

/-- A clash of paths, or a line break in a text of one of these parts. -/
inductive GraphError.OfTexts (parts : GraphText → Prop) : GraphError → Prop where
  | duplicateOutput (output first second : String) : OfTexts parts (.duplicateOutput output first second)
  | selfDependency (path rule : String) : OfTexts parts (.selfDependency path rule)
  | lineBreak {part : GraphText} (h : parts part) (rule text : String) :
    OfTexts parts (.lineBreak rule part text)

/-- What lies in the declarations themselves. -/
inductive BuildFault.OfDeclarations : BuildFault → Prop where
  | declaration (fault : DeclarationFault) : OfDeclarations (.declaration fault)
  | graph (error : GraphError) : OfDeclarations (.graph error)

/-- What depends on the files or comes to light with them: a pattern that is none, a directory that
cannot be listed, or an edge whose paths clash or break the line. -/
inductive BuildFault.OfFiles : BuildFault → Prop where
  | invalidPattern (pattern : String) (fault : Glob.Fault) : OfFiles (.invalidPattern pattern fault)
  | sourceDirectory (root : String) (fault : ListingFault) : OfFiles (.sourceDirectory root fault)
  | edge {error : GraphError} (verb pattern : String) (h : error.OfTexts (· = .path)) :
    OfFiles (.edge verb pattern error)

/-- An edge that makes something by a rule of the graph, with variables that can be named. -/
structure Edge.Regular (g : BuildGraph) (e : Edge) : Prop where
  outputs_ne_nil : e.outputs ≠ []
  rule_known : g.hasRule e.rule = true
  key_valid : ∀ b ∈ e.bindings, Ninja.isValidName b.1 = true

namespace BuildGraph

variable {g g' : BuildGraph} {r : Rule} {e : Edge} {error : GraphError} {parts : GraphText → Prop}

/-! ### What is refused -/

theorem hasRule_congr (h : g'.rules = g.rules) (name : String) : g'.hasRule name = g.hasRule name := by
  rw [hasRule, hasRule, h]

theorem variableFault?_eq_some {rule : String} {bindings : List (String × String)}
    (hkeys : ∀ b ∈ bindings, Ninja.isValidName b.1 = true) (h : variableFault? rule bindings = some error) :
    ∃ b ∈ bindings, ¬ OneLine b.2 ∧ error = .lineBreak rule .variableValue b.2 := by
  induction bindings with
  | nil => cases h
  | cons b bindings ih =>
      rw [List.forall_mem_cons] at hkeys
      rw [variableFault?, if_neg (not_not.mpr hkeys.1)] at h
      split_ifs at h with hvalue
      · cases h
        exact ⟨b, List.mem_cons_self, Ninja.hasLineBreak_iff.mp hvalue, rfl⟩
      · obtain ⟨b', hb', found⟩ := ih hkeys.2 h
        exact ⟨b', List.mem_cons_of_mem _ hb', found⟩

theorem duplicateFault?_eq_some {rule : String} {before outputs : List String}
    (h : g.duplicateFault? rule before outputs = some error) :
    ∃ output first, error = .duplicateOutput output first rule := by
  induction outputs generalizing before with
  | nil => cases h
  | cons output outputs ih =>
      rw [duplicateFault?] at h
      split at h
      · cases h
        exact ⟨output, _, rfl⟩
      · split_ifs at h
        · cases h
          exact ⟨output, rule, rfl⟩
        · exact ih h

/-- A regular edge is refused for its paths or for a value that breaks the line. -/
theorem ofTexts_of_edgeFault? (he : e.Regular g) (hpath : parts .path)
    (hvalue : parts .variableValue ∨ ∀ b ∈ e.bindings, OneLine b.2) (h : g.edgeFault? e = some error) :
    error.OfTexts parts := by
  rw [edgeFault?, if_neg he.outputs_ne_nil, if_neg (not_not.mpr he.rule_known)] at h
  split at h
  · cases h
    exact .lineBreak hpath _ _
  · split at h
    · rename_i fault hfault
      cases h
      obtain ⟨b, hb, hbreak, rfl⟩ := variableFault?_eq_some he.key_valid hfault
      rcases hvalue with hvalue | hvalue
      · exact .lineBreak hvalue _ _
      · exact absurd (hvalue b hb) hbreak
    · split at h
      · cases h
        exact .selfDependency _ _
      · obtain ⟨output, first, rfl⟩ := duplicateFault?_eq_some h
        exact .duplicateOutput _ _ _

theorem ofTexts_of_foldlM_addEdge {edges : List Edge} (hedges : ∀ e ∈ edges, e.Regular g)
    (hpath : parts .path)
    (hvalues : ∀ e ∈ edges, parts .variableValue ∨ ∀ b ∈ e.bindings, OneLine b.2)
    (h : edges.foldlM addEdge g = .error error) : error.OfTexts parts := by
  have hkeep : ∀ e ∈ edges, ∀ g₁ g₂ : BuildGraph, g₁.rules = g.rules → g₁.addEdge e = .ok g₂ →
      g₂.rules = g.rules := by
    intro e _ g₁ g₂ hrules hadd
    obtain ⟨-, rfl⟩ := addEdge_eq_ok_iff.mp hadd
    exact hrules
  obtain ⟨e, he, g', hrules, hadd⟩ := exists_of_foldlM_error hkeep rfl h
  have hregular : e.Regular g' :=
    ⟨(hedges e he).outputs_ne_nil, (hasRule_congr hrules _).trans (hedges e he).rule_known,
      (hedges e he).key_valid⟩
  rw [addEdge] at hadd
  split at hadd
  · rename_i fault hfault
    cases hadd
    exact ofTexts_of_edgeFault? hregular hpath (hvalues e he) hfault
  · cases hadd

/-- A rule with a name of its own is refused for a line break only. -/
theorem ruleFault?_eq_some (hvalid : Ninja.isValidName r.name = true)
    (hnew : r.name ≠ phony ∧ ∀ r' ∈ g.rules, r'.name ≠ r.name) (h : g.ruleFault? r = some error) :
    ∃ part text, error = .lineBreak r.name part text ∧ ¬ OneLine text ∧
      (part = .command ∧ text = r.command ∨ part = .description ∧ r.description = some text) := by
  have hfree : ¬ (r.name = phony ∨ g.hasRule r.name = true) := by
    rintro (hname | hknown)
    · exact hnew.1 hname
    · rcases hasRule_iff.mp hknown with hname | ⟨r', hr', hname⟩
      · exact hnew.1 hname
      · exact hnew.2 r' hr' hname
  rw [ruleFault?, if_neg (not_not.mpr hvalid), if_neg hfree] at h
  split_ifs at h with hcommand
  · cases h
    exact ⟨_, _, rfl, Ninja.hasLineBreak_iff.mp hcommand, Or.inl ⟨rfl, rfl⟩⟩
  · split at h
    · rename_i text hdescription
      split_ifs at h with hbreak
      cases h
      exact ⟨_, _, rfl, Ninja.hasLineBreak_iff.mp hbreak, Or.inr ⟨rfl, hdescription⟩⟩
    · cases h

/-- Rules with names of their own are refused for a line break only. -/
theorem ofTexts_of_foldlM_addRule {rules : List Rule}
    (hvalid : ∀ r ∈ rules, Ninja.isValidName r.name = true ∧ r.name ≠ phony)
    (hnodup : (rules.map (·.name)).Nodup) (hnew : ∀ r ∈ rules, ∀ r' ∈ g.rules, r'.name ≠ r.name)
    (h : rules.foldlM addRule g = .error error) : error.OfTexts fun _ => True := by
  induction rules generalizing g with
  | nil => cases h
  | cons r rules ih =>
      rw [List.forall_mem_cons] at hvalid hnew
      rw [List.map_cons, List.nodup_cons] at hnodup
      rw [List.foldlM_cons, bind_eq_error_iff] at h
      rcases h with h | ⟨next, hadd, h⟩
      · rw [addRule] at h
        split at h
        · rename_i fault hfault
          cases h
          obtain ⟨part, text, rfl, -⟩ :=
            ruleFault?_eq_some hvalid.1.1 ⟨hvalid.1.2, hnew.1⟩ hfault
          exact .lineBreak trivial _ _
        · cases h
      · obtain ⟨-, rfl⟩ := addRule_eq_ok_iff.mp hadd
        refine ih hvalid.2 hnodup.2 (fun r₁ hr₁ r₂ hr₂ => ?_) h
        rcases List.mem_append.mp hr₂ with hr₂ | hr₂
        · exact hnew.2 r₁ hr₁ r₂ hr₂
        · rw [List.mem_singleton.mp hr₂]
          exact fun heq => hnodup.1 (List.mem_map.mpr ⟨r₁, hr₁, heq.symm⟩)

end BuildGraph

/-! ### Builders -/

namespace Builder

variable {g : BuildGraph} {b : Builder} {root : String} {files : List String} {e : Edge}

/-- The edges of a builder that passes the checks are regular, and their values keep to one line. -/
theorem Sound.regular (h : b.Sound g) (he : e ∈ b.edges root files) :
    e.Regular g ∧ ∀ a ∈ e.bindings, OneLine a.2 := by
  obtain ⟨rule, hrule, hknown⟩ := h.rule_known
  cases b with
  | single s =>
      obtain ⟨file, -, he⟩ := List.mem_filterMap.mp he
      obtain ⟨name, -, rfl⟩ := Option.map_eq_some_iff.mp he
      have hknown' : g.hasRule (s.rule.getD "") = true := by
        rw [show s.rule = some rule from hrule]
        exact hknown
      exact ⟨⟨List.cons_ne_nil _ _, hknown', h.key_valid⟩, h.value_oneLine⟩
  | bundle b =>
      rw [edges] at he
      split_ifs at he with hidle
      · cases he
      · rw [not_or] at hidle
        rw [List.mem_singleton.mp he]
        have hknown' : g.hasRule (b.rule.getD "") = true := by
          rw [show b.rule = some rule from hrule]
          exact hknown
        exact ⟨⟨hidle.1, hknown', h.key_valid⟩, h.value_oneLine⟩

/-- A single that passes the checks makes one edge of each file. -/
theorem Sound.forall₂_edges {s : Single} (h : (single s).Sound g) (root : String) (files : List String) :
    List.Forall₂ (fun file e => s.edge? root file = some e) files ((single s).edges root files) := by
  obtain ⟨target, htarget⟩ := h.has_target s rfl
  refine (Single.forall₂_eq_some_iff fun file => ?_).mpr rfl
  rw [Single.edge?, Single.outputName, htarget]
  rfl

end Builder

namespace Compiled

variable {c c' : Compiled} {g : BuildGraph} {b : Builder} {root : String} {files : List String}
  {fault : BuildFault}

theorem ofFiles_of_addBuilder (hb : b.Sound g) (hrules : c.graph.rules = g.rules)
    (h : addBuilder root files c b = .error fault) : fault.OfFiles := by
  rw [addBuilder, foldlM_addEdge] at h
  cases hedges : (b.edges root files).foldlM BuildGraph.addEdge c.graph with
  | ok graph =>
      rw [hedges] at h
      cases h
  | error error =>
      rw [hedges] at h
      cases h
      refine .edge _ _ (BuildGraph.ofTexts_of_foldlM_addEdge (fun e he => ?_) rfl (fun e he => ?_) hedges)
      · obtain ⟨houtputs, hrule, hkeys⟩ := (hb.regular he).1
        exact ⟨houtputs, (BuildGraph.hasRule_congr hrules _).trans hrule, hkeys⟩
      · exact Or.inr (hb.regular he).2

theorem ofFiles_of_compile {pattern : String} (h : Glob.compile pattern = .error fault) :
    fault.OfFiles := by
  obtain ⟨cause, -, rfl⟩ := mapError_eq_error_iff.mp h
  exact .invalidPattern _ _

theorem ofFiles_of_resolve {sources : Sources} {pattern : String}
    (h : sources.resolve pattern = .error fault) : fault.OfFiles := by
  rcases bind_eq_error_iff.mp h with h | ⟨glob, -, h⟩
  · exact ofFiles_of_compile h
  · rcases bind_eq_error_iff.mp h with h | ⟨listed, -, h⟩
    · obtain ⟨cause, -, rfl⟩ := mapError_eq_error_iff.mp h
      exact .sourceDirectory _ _
    · cases h

theorem ofFiles_of_filterM {pattern : String} {available : List String}
    (h : available.filterM (Glob.matches · pattern) = .error fault) : fault.OfFiles := by
  obtain ⟨output, -, h⟩ := exists_of_filterM_error h
  rcases bind_eq_error_iff.mp h with h | ⟨glob, -, h⟩
  · exact ofFiles_of_compile h
  · cases h

theorem ofFiles_of_addSourceBuilder {sources : Sources} (hb : b.Sound g)
    (hrules : c.graph.rules = g.rules) (h : addSourceBuilder sources c b = .error fault) :
    fault.OfFiles := by
  rcases bind_eq_error_iff.mp h with h | ⟨files, -, h⟩
  · exact ofFiles_of_resolve h
  · exact ofFiles_of_addBuilder
      (c := { c with sourcePatterns := addPattern c.sourcePatterns b.pattern }) hb hrules h

theorem ofFiles_of_addBuildBuilder {available : List String} (hb : b.Sound g)
    (hrules : c.graph.rules = g.rules) (h : addBuildBuilder available c b = .error fault) :
    fault.OfFiles := by
  rcases bind_eq_error_iff.mp h with h | ⟨files, -, h⟩
  · exact ofFiles_of_filterM h
  · exact ofFiles_of_addBuilder hb hrules h

/-- A declared rule that passes the checks is refused only where its name is taken. -/
theorem ruleFault?_toRule {r : RuleDecl} {error : GraphError} (hr : r.fault? = none)
    (h : g.ruleFault? r.toRule = some error) : error = .duplicateRule r.name := by
  rw [RuleDecl.fault?] at hr
  split_ifs at hr with hreserved hvalid
  have hname : ¬ ¬ Ninja.isValidName r.toRule.name = true := not_not.mpr hvalid
  rw [BuildGraph.ruleFault?, if_neg hname] at h
  split_ifs at h with htaken hcommand
  · cases h
    rfl
  · split at hr
    · cases hr
    · rename_i command hsome
      split_ifs at hr with hbreak
      rw [RuleDecl.toRule, hsome] at hcommand
      exact absurd hcommand hbreak
  · cases h

theorem fault_of_addRule {r : RuleDecl} (h : addRule g r = .error fault) :
    (∃ cause, fault = .declaration cause) ∨ ∃ name, fault = .graph (.duplicateRule name) := by
  rw [addRule] at h
  split at h
  · cases h
    exact Or.inl ⟨_, rfl⟩
  · rename_i hr
    obtain ⟨error, hadd, rfl⟩ := mapError_eq_error_iff.mp h
    rw [BuildGraph.addRule] at hadd
    split at hadd
    · rename_i cause hcause
      cases hadd
      exact Or.inr ⟨r.name, by rw [ruleFault?_toRule hr hcause]⟩
    · cases hadd

end Compiled

/-! ### Compilations -/

variable {sources : Sources} {d : Declarations} {c : Compiled} {fault : BuildFault}

namespace Declarations

/-- The checks: the graph of the declared rules, if they and all builders are as they should be. -/
def checked (d : Declarations) : Except BuildFault BuildGraph := do
  let graph ← d.rules.foldlM Compiled.addRule {}
  match d.builders.findSome? (Builder.fault? graph) with
  | some fault => .error (.declaration fault)
  | none => return graph

/-- What comes after the checks: the builders' edges. -/
def expanded (sources : Sources) (d : Declarations) (graph : BuildGraph) :
    Except BuildFault Compiled := do
  let first ← d.sourceBuilders.foldlM (Compiled.addSourceBuilder sources) { graph }
  d.buildBuilders.foldlM (Compiled.addBuildBuilder first.outputs) first

theorem compile_eq (sources : Sources) (d : Declarations) :
    compile sources d = d.checked >>= d.expanded sources := by
  rw [compile, checked, bind_assoc]
  refine bind_congr fun graph => ?_
  cases d.builders.findSome? (Builder.fault? graph) <;> rfl

/-- The checks are passed where the rules can be declared and nothing is wrong with any builder. -/
theorem checked_eq_ok_iff {graph : BuildGraph} :
    d.checked = .ok graph ↔
      d.rules.foldlM Compiled.addRule {} = .ok graph ∧ ∀ b ∈ d.builders, b.Sound graph := by
  rw [checked, bind_eq_ok_iff]
  constructor
  · rintro ⟨graph', hrules, h⟩
    split at h
    · cases h
    · rename_i hnone
      cases h
      rw [List.findSome?_eq_none_iff] at hnone
      exact ⟨hrules, fun b hb => Builder.fault?_eq_none_iff.mp (hnone b hb)⟩
  · rintro ⟨hrules, hsound⟩
    have hnone : d.builders.findSome? (Builder.fault? graph) = none :=
      List.findSome?_eq_none_iff.mpr fun b hb => Builder.fault?_eq_none_iff.mpr (hsound b hb)
    exact ⟨graph, hrules, by rw [hnone]; rfl⟩

theorem sound_of_checked {graph : BuildGraph} (h : d.checked = .ok graph) :
    ∀ b ∈ d.builders, b.Sound graph :=
  (checked_eq_ok_iff.mp h).2

theorem fault_of_checked (h : d.checked = .error fault) :
    (∃ cause, fault = .declaration cause) ∨ ∃ name, fault = .graph (.duplicateRule name) := by
  rcases bind_eq_error_iff.mp h with h | ⟨graph, -, h⟩
  · obtain ⟨r, -, g, -, hadd⟩ :=
      exists_of_foldlM_error (P := fun _ => True) (fun _ _ _ _ _ _ => trivial) trivial h
    exact Compiled.fault_of_addRule hadd
  · split at h
    · cases h
      exact Or.inl ⟨_, rfl⟩
    · cases h

theorem ofFiles_of_expanded {graph : BuildGraph} (hsound : ∀ b ∈ d.builders, b.Sound graph)
    (h : d.expanded sources graph = .error fault) : fault.OfFiles := by
  have hsource : ∀ b ∈ d.sourceBuilders, ∀ c c' : Compiled, c.graph.rules = graph.rules →
      Compiled.addSourceBuilder sources c b = .ok c' → c'.graph.rules = graph.rules := by
    intro b _ c c' hrules hadd
    obtain ⟨files, -, hadd⟩ := Compiled.addSourceBuilder_eq_ok_iff.mp hadd
    exact (Compiled.adds_addBuilder hadd).rules_eq.trans hrules
  rcases bind_eq_error_iff.mp h with h | ⟨first, hfirst, h⟩
  · obtain ⟨b, hb, c, hrules, h⟩ := exists_of_foldlM_error hsource rfl h
    exact Compiled.ofFiles_of_addSourceBuilder (hsound b (List.mem_of_mem_filter hb)) hrules h
  · have hbuild : ∀ b ∈ d.buildBuilders, ∀ c c' : Compiled, c.graph.rules = graph.rules →
        Compiled.addBuildBuilder first.outputs c b = .ok c' → c'.graph.rules = graph.rules := by
      intro b _ c c' hrules hadd
      obtain ⟨files, -, hadd⟩ := Compiled.addBuildBuilder_eq_ok_iff.mp hadd
      exact (Compiled.adds_addBuilder hadd).rules_eq.trans hrules
    have hrules : first.graph.rules = graph.rules := foldlM_keeps hsource rfl hfirst
    obtain ⟨b, hb, c, hrules, h⟩ := exists_of_foldlM_error hbuild hrules h
    exact Compiled.ofFiles_of_addBuildBuilder (hsound b (List.mem_of_mem_filter hb)) hrules h

/-- What the checks find is found whatever files there are. -/
theorem compile_eq_error (h : d.checked = .error fault) (sources : Sources) :
    compile sources d = .error fault := by
  rw [compile_eq, h]
  rfl

theorem ofDeclarations_of_checked (h : d.checked = .error fault) : fault.OfDeclarations := by
  rcases fault_of_checked h with ⟨cause, rfl⟩ | ⟨name, rfl⟩
  · exact .declaration cause
  · exact .graph _

theorem ofFiles_of_compile_eq_error {graph : BuildGraph} (hchecked : d.checked = .ok graph)
    (h : compile sources d = .error fault) : fault.OfFiles := by
  rw [compile_eq, hchecked] at h
  exact ofFiles_of_expanded (sound_of_checked hchecked) h

end Declarations

/-! ### Bookkeeping -/

/-- The names of the bookkeeping rules are kept free. -/
theorem compile_names_free (h : compile sources d = .ok c) :
    ∀ r ∈ c.graph.rules, r.name ∉ reservedRules := by
  obtain ⟨graph, _, _, hrules, -, hadds⟩ := compile_adds h
  obtain ⟨hfaults, hrules⟩ := Compiled.foldlM_addRule_eq_ok hrules
  rw [hadds.rules_eq, BuildGraph.foldlM_addRule_eq_ok hrules, List.nil_append, List.forall_mem_map]
  intro r hr hreserved
  have hfault := hfaults r hr
  have hcontains : reservedRules.contains r.name = true := List.contains_iff_mem.mpr hreserved
  rw [RuleDecl.fault?, if_pos hcontains] at hfault
  cases hfault

namespace Regeneration

variable {o : RegenOptions} {sourcePatterns : List String} {g : BuildGraph}

theorem names_rules (o : RegenOptions) :
    (rules o).map (·.name) = [refreshRule, generateRule, cleanRule] := rfl

theorem name_mem {r : Rule} (hr : r ∈ rules o) : r.name ∈ [refreshRule, generateRule, cleanRule] :=
  names_rules o ▸ List.mem_map_of_mem hr

theorem regular_edges (hrules : ∀ r ∈ rules o, r ∈ g.rules) :
    ∀ e ∈ edges o sourcePatterns, e.Regular g := by
  have hknown : ∀ name ∈ [refreshRule, generateRule, cleanRule], g.hasRule name = true := by
    intro name hname
    obtain ⟨r, hr, rfl⟩ := List.mem_map.mp ((names_rules o).symm ▸ hname)
    exact BuildGraph.hasRule_iff.mpr (Or.inr ⟨r, hrules r hr, rfl⟩)
  have hphony : g.hasRule phony = true := BuildGraph.hasRule_iff.mpr (Or.inl rfl)
  intro e he
  rcases mem_edges_iff.mp he with rfl | hlist | rfl | rfl
  · exact ⟨List.cons_ne_nil _ _, hphony, List.forall_mem_nil _⟩
  · rw [fileListEdge?] at hlist
    split_ifs at hlist
    cases hlist
    refine ⟨List.cons_ne_nil _ _, hknown _ (by simp), fun b hb => ?_⟩
    have hkey : b.1 ∈ ["patterns", "root"] := List.mem_map_of_mem (f := Prod.fst) hb
    have hvalid : ∀ key ∈ ["patterns", "root"], Ninja.isValidName key = true := by decide
    exact hvalid b.1 hkey
  · exact ⟨List.cons_ne_nil _ _, hknown generateRule (by simp), List.forall_mem_nil _⟩
  · exact ⟨List.cons_ne_nil _ _, hknown cleanRule (by simp), List.forall_mem_nil _⟩

end Regeneration

/-- Bookkeeping after a compilation fails for paths that clash or for a line break only. -/
theorem ofTexts_of_wireRegeneration (h : compile sources d = .ok c) {o : RegenOptions}
    {outputs sourcePatterns : List String} {error : GraphError}
    (herror : (GraphEdit.wireRegeneration o outputs sourcePatterns).apply c.graph = .error error) :
    error.OfTexts fun _ => True := by
  have hvalid : ∀ name ∈ [refreshRule, generateRule, cleanRule],
      Ninja.isValidName name = true ∧ name ≠ phony ∧ name ∈ reservedRules := by decide
  rw [GraphEdit.apply_wireRegeneration] at herror
  rcases bind_eq_error_iff.mp herror with herror | ⟨ruled, hruled, herror⟩
  · refine BuildGraph.ofTexts_of_foldlM_addRule (fun r hr => ?_) ?_ (fun r hr r' hr' heq => ?_) herror
    · have hname := hvalid r.name (Regeneration.name_mem hr)
      exact ⟨hname.1, hname.2.1⟩
    · rw [Regeneration.names_rules]
      decide
    · refine compile_names_free h r' hr' ?_
      rw [heq]
      exact (hvalid r.name (Regeneration.name_mem hr)).2.2
  · rcases bind_eq_error_iff.mp herror with herror | ⟨edged, -, herror⟩
    · refine BuildGraph.ofTexts_of_foldlM_addEdge (Regeneration.regular_edges fun r hr => ?_) trivial
        (fun _ _ => Or.inl trivial) herror
      rw [BuildGraph.foldlM_addRule_eq_ok hruled]
      exact List.mem_append_right _ hr
    · cases herror

/-- The checks find all that is wrong with declarations, whatever files there are: where a compilation
fails for the declarations, every compilation of them fails with the same, and the graph itself can only
object to a rule that is declared twice. Where none does, compilations fail for patterns, directories and
paths alone, and a single makes one edge of each file. The bookkeeping after a compilation fails for
clashing paths or line breaks alone. -/
theorem compile_validation (d : Declarations) :
    (∀ sources fault, compile sources d = .error fault → fault.OfDeclarations →
      (∀ sources', compile sources' d = .error fault) ∧
        ∀ error, fault = .graph error → ∃ name, error = .duplicateRule name) ∧
    ((∀ sources fault, compile sources d = .error fault → ¬ fault.OfDeclarations) →
      (∀ sources fault, compile sources d = .error fault → fault.OfFiles) ∧
        ∀ s ∈ d.singles, ∀ root files, List.Forall₂ (fun file e => s.edge? root file = some e) files
          ((Builder.single s).edges root files)) ∧
    ∀ sources c, compile sources d = .ok c → ∀ o outputs sourcePatterns error,
      (GraphEdit.wireRegeneration o outputs sourcePatterns).apply c.graph = .error error →
        error.OfTexts fun _ => True := by
  refine ⟨fun sources fault h hfault => ?_, fun hnone => ?_,
    fun sources c h o outputs sourcePatterns error => ofTexts_of_wireRegeneration h⟩
  · cases hchecked : d.checked with
    | error cause =>
        have hall := Declarations.compile_eq_error hchecked
        rw [hall sources] at h
        cases h
        refine ⟨hall, ?_⟩
        rintro error rfl
        rcases Declarations.fault_of_checked hchecked with ⟨cause, hcause⟩ | ⟨name, hname⟩
        · cases hcause
        · cases hname
          exact ⟨name, rfl⟩
    | ok graph =>
        have hfiles := Declarations.ofFiles_of_compile_eq_error hchecked h
        cases hfault <;> cases hfiles
  · cases hchecked : d.checked with
    | error cause =>
        have hone := Declarations.compile_eq_error hchecked ⟨"", fun _ => .ok []⟩
        exact absurd (Declarations.ofDeclarations_of_checked hchecked) (hnone _ _ hone)
    | ok graph =>
        refine ⟨fun sources fault => Declarations.ofFiles_of_compile_eq_error hchecked,
          fun s hs root files => ?_⟩
        have hmem : Builder.single s ∈ d.builders := List.mem_append_left _ (List.mem_map_of_mem hs)
        exact (Declarations.sound_of_checked hchecked _ hmem).forall₂_edges root files

/-- A single whose rule nobody declares. -/
def undeclaredDeclarations : Declarations where
  singles := [{ pattern := "*.psd", target := some "$filename.png", rule := some "convert" }]

theorem compile_validation_undeclared :
    compile ⟨"src", fun _ => .ok ["a.psd"]⟩ undeclaredDeclarations =
        .error (.declaration (.undeclaredRule "single" "*.psd" "convert")) ∧
      ∀ sources, compile sources undeclaredDeclarations =
        .error (.declaration (.undeclaredRule "single" "*.psd" "convert")) := by
  have hone : compile ⟨"src", fun _ => .ok ["a.psd"]⟩ undeclaredDeclarations =
      .error (.declaration (.undeclaredRule "single" "*.psd" "convert")) := by decide
  exact ⟨hone, ((compile_validation undeclaredDeclarations).1 _ _ hone (.declaration _)).1⟩

end AssetPipeline
