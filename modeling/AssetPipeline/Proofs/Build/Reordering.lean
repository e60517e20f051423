import AssetPipeline.Proofs.Build.Generated
import Mathlib.Data.List.Perm.Basic
import Mathlib.Data.Multiset.MapFold

/-! Declarations in another order. A compilation checks each edge against those before it, but what it
comes to is that all edges fit together, and this is said without their order. So another order of the
rules, of the singles or of the bundles moves edges about, and with them the outputs that builders over
the build directory see; only the inputs of their bundles' edges follow that order. -/

namespace AssetPipeline

/-! ### When declarations compile -/

theorem RuleDecl.sound_toRule {r : RuleDecl} (h : r.fault? = none) : r.toRule.Sound := by
  rw [fault?] at h
  split_ifs at h with hreserved hvalid
  rw [List.contains_iff_mem] at hreserved
  have hphony : r.name ≠ phony := by
    intro hname
    rw [hname] at hreserved
    exact hreserved List.mem_cons_self
  refine ⟨hvalid, hphony, ?_, nofun⟩
  cases hcommand : r.command with
  | none => simp [hcommand] at h
  | some command => simpa [hcommand, Ninja.hasLineBreak_iff, toRule] using h

/-- Whether a builder passes the checks depends on the graph for its rules alone. -/
theorem Builder.Sound.congr {b : Builder} {g g' : BuildGraph} (h : b.Sound g)
    (hrules : ∀ name, g'.hasRule name = g.hasRule name) : b.Sound g' := by
  obtain ⟨rule, hrule, hknown⟩ := h.rule_known
  exact ⟨⟨rule, hrule, (hrules rule).trans hknown⟩, h.pattern_oneLine, h.target_oneLine, h.key_valid,
    h.value_oneLine, h.has_target⟩

/-- What has to hold of declarations, and of the edges that they expand to. -/
structure Declarations.Fits (d : Declarations) (edges : List Edge) : Prop where
  rules_faultless : ∀ r ∈ d.rules, r.fault? = none
  names_nodup : (d.rules.map (·.name)).Nodup
  builders_sound : ∀ b ∈ d.builders, b.Sound { rules := d.rules.map RuleDecl.toRule }
  edges_sound : ∀ e ∈ edges, e.Sound (d.rules.map RuleDecl.toRule)
  outputs_nodup : (edges.flatMap (·.outputs)).Nodup

namespace Compiled

variable {c : Compiled} {sources : Sources} {builders : List Builder}

/-- Rules can be declared exactly when nothing is wrong with any of them and no two have the same
name. -/
theorem foldlM_addRule_iff {rules : List RuleDecl} {g : BuildGraph} :
    rules.foldlM addRule {} = .ok g ↔ (∀ r ∈ rules, r.fault? = none) ∧
      (rules.map (·.name)).Nodup ∧ g = { rules := rules.map RuleDecl.toRule } := by
  have hnames : (rules.map RuleDecl.toRule).map (·.name) = rules.map (·.name) := by
    rw [List.map_map]
    rfl
  rw [foldlM_addRule_eq_ok_iff]
  refine and_congr_right fun hfaultless => ⟨fun h => ?_, ?_⟩
  · have hnodup := (BuildGraph.wellFormed_empty.exists_foldlM_addRule_iff.mp ⟨g, h⟩).2
    rw [List.nil_append, hnames] at hnodup
    exact ⟨hnodup, BuildGraph.foldlM_addRule_eq_ok h⟩
  · rintro ⟨hnodup, rfl⟩
    have hsound : ∀ r ∈ rules.map RuleDecl.toRule, r.Sound :=
      List.forall_mem_map.mpr fun r hr => RuleDecl.sound_toRule (hfaultless r hr)
    rw [← hnames] at hnodup
    obtain ⟨g, h⟩ := BuildGraph.wellFormed_empty.exists_foldlM_addRule_iff.mpr ⟨hsound, hnodup⟩
    rw [h, BuildGraph.foldlM_addRule_eq_ok h]
    rfl

theorem wellFormed_foldlM_addRule {rules : List RuleDecl} {g : BuildGraph}
    (h : rules.foldlM addRule {} = .ok g) : g.WellFormed :=
  BuildGraph.wellFormed_empty.foldlM_addRule (foldlM_addRule_eq_ok h).2

/-- Where all edges of some builders can be added to the graph, the builders can. -/
theorem exists_foldlM_of_edges (step : Compiled → Builder → Except BuildFault Compiled)
    {R : Builder → List Edge → Prop} {edges : List (List Edge)}
    (hstep : ∀ b ∈ builders, ∀ edges c graph, R b edges →
      edges.foldlM BuildGraph.addEdge c.graph = .ok graph →
      ∃ c', step c b = .ok c' ∧ c'.graph = graph ∧ c'.outputs = c.outputs ++ edges.flatMap (·.outputs))
    (h : List.Forall₂ R builders edges) {graph : BuildGraph}
    (hedges : edges.flatten.foldlM BuildGraph.addEdge c.graph = .ok graph) :
    ∃ c', builders.foldlM step c = .ok c' ∧ c'.graph = graph ∧
      c'.outputs = c.outputs ++ edges.flatten.flatMap (·.outputs) := by
  induction h generalizing c with
  | nil =>
      cases hedges
      exact ⟨c, rfl, rfl, (List.append_nil _).symm⟩
  | @cons b made builders edges hb _ ih =>
      rw [List.forall_mem_cons] at hstep
      rw [List.flatten_cons, List.foldlM_append, bind_eq_ok_iff] at hedges
      obtain ⟨mid, hmade, hedges⟩ := hedges
      obtain ⟨next, hnext, rfl, houtputs⟩ := hstep.1 made c mid hb hmade
      obtain ⟨c', h, hgraph, houtputs'⟩ := ih hstep.2 hedges
      refine ⟨c', bind_eq_ok_iff.mpr ⟨next, hnext, h⟩, hgraph, ?_⟩
      rw [houtputs', houtputs, List.flatten_cons, List.flatMap_append, List.append_assoc]

theorem exists_addBuilder {b : Builder} {g graph : BuildGraph} {root : String} {files : List String}
    {edges : List Edge} (hb : b.Sound g) (hmakes : b.Makes root files edges)
    (hedges : edges.foldlM BuildGraph.addEdge c.graph = .ok graph) :
    ∃ c', addBuilder root files c b = .ok c' ∧ c'.graph = graph ∧
      c'.outputs = c.outputs ++ edges.flatMap (·.outputs) := by
  obtain rfl := (Builder.makes_iff hb).mp hmakes
  exact ⟨_, addBuilder_eq_ok_iff.mpr ⟨graph, hedges, rfl⟩, rfl, rfl⟩

theorem exists_foldlM_addSourceBuilder {sources : Sources} {g graph : BuildGraph} {edges : List (List Edge)}
    (hsound : ∀ b ∈ builders, b.Sound g)
    (h : List.Forall₂ (fun b edges => ∃ files, sources.resolve b.pattern = .ok files ∧
      b.Makes sources.root files edges) builders edges)
    (hedges : edges.flatten.foldlM BuildGraph.addEdge c.graph = .ok graph) :
    ∃ c', builders.foldlM (addSourceBuilder sources) c = .ok c' ∧ c'.graph = graph ∧
      c'.outputs = c.outputs ++ edges.flatten.flatMap (·.outputs) := by
  refine exists_foldlM_of_edges (addSourceBuilder sources) (fun b hb edges c graph hmakes hedges => ?_) h
    hedges
  obtain ⟨files, hfiles, hmakes⟩ := hmakes
  obtain ⟨c', hadd, found⟩ := exists_addBuilder
    (c := { c with sourcePatterns := addPattern c.sourcePatterns b.pattern }) (hsound b hb) hmakes hedges
  exact ⟨c', addSourceBuilder_eq_ok_iff.mpr ⟨files, hfiles, hadd⟩, found⟩

theorem exists_foldlM_addBuildBuilder {available : List String} {g graph : BuildGraph}
    {edges : List (List Edge)} (hsound : ∀ b ∈ builders, b.Sound g)
    (h : List.Forall₂ (fun b edges => ∃ files, Glob.Selects b.pattern available files ∧
      b.Makes "." files edges) builders edges)
    (hedges : edges.flatten.foldlM BuildGraph.addEdge c.graph = .ok graph) :
    ∃ c', builders.foldlM (addBuildBuilder available) c = .ok c' ∧ c'.graph = graph ∧
      c'.outputs = c.outputs ++ edges.flatten.flatMap (·.outputs) := by
  refine exists_foldlM_of_edges (addBuildBuilder available) (fun b hb edges c graph hmakes hedges => ?_) h
    hedges
  obtain ⟨files, hfiles, hmakes⟩ := hmakes
  obtain ⟨c', hadd, found⟩ := exists_addBuilder (hsound b hb) hmakes hedges
  exact ⟨c', addBuildBuilder_eq_ok_iff.mpr ⟨files, Glob.selects_iff.mp hfiles, hadd⟩, found⟩

end Compiled

/-- Declarations compile exactly when they expand to edges that fit together with them. -/
theorem exists_compile_iff {sources : Sources} {d : Declarations} :
    (∃ c, compile sources d = .ok c) ↔ ∃ first second, d.ExpandsTo sources first second ∧
      d.Fits (first.flatten ++ second.flatten) := by
  constructor
  · rintro ⟨c, h⟩
    obtain ⟨graph, mid, first, second, hrules, hsound, -, hexpands, hadds, hadds'⟩ := compile_phases h
    obtain ⟨hfaultless, hnames, rfl⟩ := Compiled.foldlM_addRule_iff.mp hrules
    have hall := hadds.trans hadds'
    have hedges : c.graph.edges = first.flatten ++ second.flatten := hall.edges_eq
    have hknown : c.graph.rules = d.rules.map RuleDecl.toRule := hall.rules_eq
    have hc := hall.wellFormed (Compiled.wellFormed_foldlM_addRule hrules)
    refine ⟨first, second, hexpands, hfaultless, hnames, hsound, fun e he => ?_, ?_⟩
    · rw [← hedges] at he
      exact hknown ▸ hc.edge_sound e he
    · rw [← hedges]
      exact hc.outputs_nodup
  · rintro ⟨first, second, hexpands, hfits⟩
    have hrules := Compiled.foldlM_addRule_iff.mpr ⟨hfits.rules_faultless, hfits.names_nodup, rfl⟩
    have hsound := hfits.builders_sound
    obtain ⟨graph, hgraph⟩ := (Compiled.wellFormed_foldlM_addRule hrules).exists_foldlM_addEdge_iff.mpr
      ⟨hfits.edges_sound, hfits.outputs_nodup⟩
    rw [List.foldlM_append] at hgraph
    obtain ⟨half, hhalf, hgraph⟩ := bind_eq_ok_iff.mp hgraph
    obtain ⟨mid, hmid, rfl, houtputs⟩ := Compiled.exists_foldlM_addSourceBuilder
      (c := { graph := { rules := d.rules.map RuleDecl.toRule } })
      (fun b hb => hsound b (List.mem_of_mem_filter hb)) hexpands.source hhalf
    have hbuild := hexpands.build
    rw [List.nil_append] at houtputs
    rw [← houtputs] at hbuild
    obtain ⟨c, hc, -⟩ := Compiled.exists_foldlM_addBuildBuilder
      (fun b hb => hsound b (List.mem_of_mem_filter hb)) hbuild hgraph
    exact ⟨c, compile_eq_ok_iff.mpr ⟨_, hrules, hsound, mid, hmid, hc⟩⟩

/-! ### Another order -/

/-- The same declarations, with the rules, the singles and the bundles each in any order. -/
structure Declarations.Permuted (d d' : Declarations) : Prop where
  rules : d.rules.Perm d'.rules
  singles : d.singles.Perm d'.singles
  bundles : d.bundles.Perm d'.bundles

/-- The same edge but for the order of its inputs. -/
def Edge.Reordered (e e' : Edge) : Prop :=
  ∃ inputs, e.inputs.Perm inputs ∧ e' = { e with inputs }

/-- The edge is made by a bundle over the build directory. -/
def Declarations.BundledFromBuild (d : Declarations) (sources : Sources) (e : Edge) : Prop :=
  ∃ first second, d.ExpandsTo sources first second ∧ ∃ b, Builder.bundle b ∈ d.buildBuilders ∧
    ∃ files, Glob.Selects b.pattern (first.flatten.flatMap (·.outputs)) files ∧
      (Builder.bundle b).Makes "." files [e]

/-- The same edge, or if it is made by a bundle over the build directory, the same edge but for the order
of its inputs. -/
def Declarations.SameEdge (d : Declarations) (sources : Sources) (e e' : Edge) : Prop :=
  e' = e ∨ d.BundledFromBuild sources e ∧ e.Reordered e'

theorem Edge.Reordered.sound {e e' : Edge} {rules : List Rule} (h : e.Reordered e')
    (he : e.Sound rules) : e'.Sound rules := by
  obtain ⟨inputs, hinputs, rfl⟩ := h
  refine ⟨he.outputs_ne_nil, he.rule_known, fun path hpath => ?_, he.key_valid, he.value_oneLine,
    fun path hpath hinput => he.output_not_input path hpath (hinputs.mem_iff.mpr hinput)⟩
  exact he.path_oneLine path ((hinputs.append_left e.outputs).mem_iff.mpr hpath)

/-- Of the same files in another order, a builder makes the same edges but for the order of the inputs
of a bundle. -/
theorem Builder.Makes.perm {b : Builder} {root : String} {files files' : List String}
    {edges : List Edge} (h : b.Makes root files edges) (hfiles : files.Perm files') :
    ∃ edges', b.Makes root files' edges' ∧ Multiset.Rel (fun e e' => e' = e ∨
      (∃ bundle, b = .bundle bundle ∧ edges = [e]) ∧ e.Reordered e') ↑edges ↑edges' := by
  cases h with
  | single h =>
      obtain ⟨edges', hedges', hperm⟩ := List.perm_comp_forall₂ hfiles.symm h
      refine ⟨edges', .single hedges', ?_⟩
      rw [Multiset.coe_eq_coe.mpr hperm]
      exact Multiset.rel_refl_of_refl_on fun e _ => Or.inl rfl
  | @bundle b rule hrule htargets hfilesNe =>
      have hne : files' ≠ [] := by
        rintro rfl
        exact hfilesNe hfiles.eq_nil
      refine ⟨_, .bundle hrule htargets hne, ?_⟩
      refine Multiset.Rel.cons ?_ Multiset.Rel.zero
      exact Or.inr ⟨⟨b, rfl, rfl⟩, files'.map (Path.joinRoot root), hfiles.map _, rfl⟩
  | idle hidle =>
      refine ⟨[], .idle (hidle.imp_right fun hnil => ?_), Multiset.Rel.zero⟩
      rw [hnil] at hfiles
      exact hfiles.symm.eq_nil

theorem Glob.Selects.perm {pattern : String} {available available' files : List String}
    (h : Glob.Selects pattern available files) (havailable : available.Perm available') :
    ∃ files', Glob.Selects pattern available' files' ∧ files.Perm files' := by
  obtain ⟨keeps, hkeeps, rfl⟩ := h
  exact ⟨_, ⟨keeps, fun path hpath => hkeeps path (havailable.mem_iff.mpr hpath), rfl⟩,
    havailable.filter keeps⟩

theorem rel_flatten {α : Type} {S : α → α → Prop} {lists lists' : List (List α)}
    (h : List.Forall₂ (fun l l' : List α => Multiset.Rel S ↑l ↑l') lists lists') :
    Multiset.Rel S ↑lists.flatten ↑lists'.flatten := by
  induction h with
  | nil => exact Multiset.Rel.zero
  | cons hl _ ih =>
      rw [List.flatten_cons, List.flatten_cons, ← Multiset.coe_add, ← Multiset.coe_add]
      exact hl.add ih

/-- Edges that have the same outputs one by one have the same outputs altogether. -/
theorem outputs_perm_of_rel {S : Edge → Edge → Prop} {edges edges' : List Edge}
    (hS : ∀ e e', S e e' → e.outputs = e'.outputs) (h : Multiset.Rel S ↑edges ↑edges') :
    (edges.flatMap (·.outputs)).Perm (edges'.flatMap (·.outputs)) := by
  have houtputs : Multiset.Rel (· = ·) (Multiset.map Edge.outputs ↑edges)
      (Multiset.map Edge.outputs ↑edges') :=
    Multiset.rel_map.mpr (h.mono fun e _ e' _ => hS e e')
  rw [Multiset.rel_eq, Multiset.map_coe, Multiset.map_coe, Multiset.coe_eq_coe] at houtputs
  exact houtputs.flatten

/-- Well-formed graphs whose edges go together one by one have producers that go together. -/
theorem BuildGraph.WellFormed.producer?_rel {S : Edge → Edge → Prop} {g g' : BuildGraph}
    (hg : g.WellFormed) (hg' : g'.WellFormed) (hS : ∀ e e', S e e' → e.outputs = e'.outputs)
    (h : Multiset.Rel S ↑g.edges ↑g'.edges) (path : String) :
    Option.Rel S (g.producer? path) (g'.producer? path) := by
  cases hproducer : g.producer? path with
  | none =>
      rw [hg.indexed.producer?_eq_none_iff] at hproducer
      have hnone : g'.producer? path = none := by
        refine hg'.indexed.producer?_eq_none_iff.mpr fun e' he' hpath => ?_
        have hmem := (outputs_perm_of_rel hS h).mem_iff.mpr (List.mem_flatMap.mpr ⟨e', he', hpath⟩)
        obtain ⟨e, he, hpath⟩ := List.mem_flatMap.mp hmem
        exact hproducer e he hpath
      rw [hnone]
      exact .none
  | some e =>
      obtain ⟨he, hpath⟩ := hg.indexed.producer?_eq_some_iff_mem.mp hproducer
      obtain ⟨e', he', hsame⟩ := Multiset.exists_mem_of_rel_of_mem h (Multiset.mem_coe.mpr he)
      rw [hg'.indexed.producer?_eq_some_iff_mem.mpr ⟨Multiset.mem_coe.mp he', hS e e' hsame ▸ hpath⟩]
      exact .some hsame

namespace Declarations

variable {d d' : Declarations} {sources : Sources} {e e' : Edge}

theorem SameEdge.outputs_eq (h : d.SameEdge sources e e') : e.outputs = e'.outputs := by
  rcases h with rfl | ⟨-, inputs, -, rfl⟩
  · rfl
  · rfl

theorem SameEdge.sound {rules : List Rule} (h : d.SameEdge sources e e') (he : e.Sound rules) :
    e'.Sound rules := by
  rcases h with rfl | ⟨-, hreordered⟩
  · exact he
  · exact hreordered.sound he

namespace Permuted

variable {first second : List (List Edge)}

theorem symm (h : d.Permuted d') : d'.Permuted d :=
  ⟨h.rules.symm, h.singles.symm, h.bundles.symm⟩

theorem builders (h : d.Permuted d') : d.builders.Perm d'.builders :=
  (h.singles.map _).append (h.bundles.map _)

/-- The source directory's builders make the same edges. Those of the build directory see the same outputs
in another order, so the inputs of their bundles' edges move. -/
theorem expandsTo (h : d.Permuted d') (hexpands : d.ExpandsTo sources first second) :
    ∃ first' second', d'.ExpandsTo sources first' second' ∧
      Multiset.Rel (d.SameEdge sources) ↑(first.flatten ++ second.flatten)
        ↑(first'.flatten ++ second'.flatten) := by
  obtain ⟨first', hfirst', hperm⟩ :=
    List.perm_comp_forall₂ (h.symm.builders.filter (! ·.buildRelative)) hexpands.source
  have hflatten := hperm.symm.flatten
  -- First the builders over the build directory stay where they are and see the outputs in the new order;
  -- only then are they put into another order themselves.
  have havailable := hflatten.flatMap_right (·.outputs)
  have hbuild : ∃ made, List.Forall₂ (fun b edges => ∃ files,
      Glob.Selects b.pattern (first'.flatten.flatMap (·.outputs)) files ∧ b.Makes "." files edges)
      d.buildBuilders made ∧
      List.Forall₂ (fun l l' : List Edge => Multiset.Rel (d.SameEdge sources) ↑l ↑l') second made := by
    refine exists_forall₂ hexpands.build fun b hb edges hedges => ?_
    obtain ⟨files, hfiles, hmakes⟩ := hedges
    obtain ⟨files', hfiles', hfilesPerm⟩ := hfiles.perm havailable
    obtain ⟨edges', hmakes', hrel⟩ := hmakes.perm hfilesPerm
    refine ⟨edges', ⟨files', hfiles', hmakes'⟩, hrel.mono fun e _ e' _ he => he.imp_right ?_⟩
    rintro ⟨⟨bundle, rfl, rfl⟩, hreordered⟩
    exact ⟨⟨first, second, hexpands, bundle, hb, files, hfiles, hmakes⟩, hreordered⟩
  obtain ⟨made, hmade, hrel⟩ := hbuild
  obtain ⟨second', hsecond', hperm'⟩ :=
    List.perm_comp_forall₂ (h.symm.builders.filter (·.buildRelative)) hmade
  refine ⟨first', second', ⟨hfirst', hsecond'⟩, ?_⟩
  rw [← Multiset.coe_add, ← Multiset.coe_add, Multiset.coe_eq_coe.mpr hflatten,
    Multiset.coe_eq_coe.mpr hperm'.flatten]
  have hfirst : Multiset.Rel (d.SameEdge sources) ↑first'.flatten ↑first'.flatten :=
    Multiset.rel_refl_of_refl_on fun e _ => Or.inl rfl
  exact hfirst.add (rel_flatten hrel)

/-- What fits together does so in any order. -/
theorem fits {edges edges' : List Edge} (h : d.Permuted d')
    (hedges : Multiset.Rel (d.SameEdge sources) ↑edges ↑edges') (hfits : d.Fits edges) :
    d'.Fits edges' := by
  have hrules : (d.rules.map RuleDecl.toRule).Perm (d'.rules.map RuleDecl.toRule) := h.rules.map _
  refine ⟨fun r hr => hfits.rules_faultless r (h.rules.mem_iff.mpr hr),
    (h.rules.map _).nodup_iff.mp hfits.names_nodup, fun b hb => ?_, fun e' he' => ?_,
    (outputs_perm_of_rel (fun _ _ => SameEdge.outputs_eq) hedges).nodup_iff.mp hfits.outputs_nodup⟩
  · refine (hfits.builders_sound b (h.builders.mem_iff.mpr hb)).congr fun name => ?_
    rw [Bool.eq_iff_iff, BuildGraph.hasRule_iff, BuildGraph.hasRule_iff]
    simp only [hrules.mem_iff]
  · obtain ⟨e, he, hsame⟩ := Multiset.exists_mem_of_rel_of_mem (Multiset.rel_flip.mpr hedges) he'
    exact (hsame.sound (hfits.edges_sound e he)).mono hrules.subset

end Permuted

end Declarations

variable {sources : Sources} {d d' : Declarations} {c c' : Compiled}

theorem Declarations.Permuted.exists_compile (h : d.Permuted d') (hc : ∃ c, compile sources d = .ok c) :
    ∃ c', compile sources d' = .ok c' := by
  obtain ⟨first, second, hexpands, hfits⟩ := exists_compile_iff.mp hc
  obtain ⟨first', second', hexpands', hrel⟩ := h.expandsTo hexpands
  exact exists_compile_iff.mpr ⟨first', second', hexpands', h.fits hrel hfits⟩

theorem Declarations.Permuted.edges_rel (h : d.Permuted d') (hc : compile sources d = .ok c)
    (hc' : compile sources d' = .ok c') :
    Multiset.Rel (d.SameEdge sources) ↑c.graph.edges ↑c'.graph.edges := by
  obtain ⟨first, second, hexpands, hedges, -⟩ := compile_edges hc
  obtain ⟨first', second', hexpands', hedges', -⟩ := compile_edges hc'
  obtain ⟨front, back, hfound, hrel⟩ := h.expandsTo hexpands
  obtain ⟨rfl, rfl⟩ := hfound.unique hexpands'
  rw [hedges, hedges']
  exact hrel

/-- Whether declarations compile does not depend on the order of the rules, of the singles or of the
bundles. Nor does it matter to what they compile to, but that the results stand in another order: the edges,
where only those of bundles over the build directory may have their inputs in another order, the outputs,
each with the edge that produces it, and the source patterns. -/
theorem compile_permuted (h : d.Permuted d') :
    ((∃ c, compile sources d = .ok c) ↔ ∃ c', compile sources d' = .ok c') ∧
      ∀ c c', compile sources d = .ok c → compile sources d' = .ok c' →
        Multiset.Rel (d.SameEdge sources) ↑c.graph.edges ↑c'.graph.edges ∧
        c.outputs.Perm c'.outputs ∧
        (∀ path, Option.Rel (d.SameEdge sources) (c.graph.producer? path) (c'.graph.producer? path)) ∧
        ∀ pattern, pattern ∈ c.sourcePatterns ↔ pattern ∈ c'.sourcePatterns := by
  refine ⟨⟨h.exists_compile, h.symm.exists_compile⟩, fun c c' hc hc' => ?_⟩
  have hedges := h.edges_rel hc hc'
  have houtputs : ∀ e e', d.SameEdge sources e e' → e.outputs = e'.outputs := fun _ _ => (·.outputs_eq)
  obtain ⟨-, -, -, -, hmade⟩ := compile_edges hc
  obtain ⟨-, -, -, -, hmade'⟩ := compile_edges hc'
  refine ⟨hedges, ?_, ?_, fun pattern => ?_⟩
  · rw [hmade, hmade']
    exact outputs_perm_of_rel houtputs hedges
  · exact (compile_wellFormed hc).producer?_rel (compile_wellFormed hc') houtputs hedges
  · rw [compile_sourcePatterns hc, compile_sourcePatterns hc', List.mem_eraseDups, List.mem_eraseDups]
    exact ((h.builders.filter _).map _).mem_iff

/-- Pictures of two kinds, and a sheet made of what they become. -/
def sheetSources : Sources := ⟨"src", fun _ => .ok ["hero.psd", "tree.svg"]⟩

def sheetDeclarations : Declarations where
  rules := [{ name := "convert", command := some "tool $in $out" }]
  singles := [{ pattern := "*.psd", target := some "$filename.png", rule := some "convert" },
              { pattern := "*.svg", target := some "$filename.png", rule := some "convert" }]
  bundles := [{ pattern := "*.png", buildRelative := true, targets := ["sheet.jpg"],
                rule := some "convert" }]

/-- The same with the two kinds of pictures the other way round. -/
def sheetReversed : Declarations :=
  { sheetDeclarations with singles := sheetDeclarations.singles.reverse }

theorem compile_permuted_sheet :
    sheetDeclarations.Permuted sheetReversed ∧
      ∃ c c', compile sheetSources sheetDeclarations = .ok c ∧
        compile sheetSources sheetReversed = .ok c' ∧
        (c.graph.producer? "sheet.jpg").map (·.inputs) = some ["hero.png", "tree.png"] ∧
        (c'.graph.producer? "sheet.jpg").map (·.inputs) = some ["tree.png", "hero.png"] ∧
        c.outputs.Perm c'.outputs := by
  have hpermuted : sheetDeclarations.Permuted sheetReversed :=
    ⟨.refl _, (List.reverse_perm _).symm, .refl _⟩
  have hcompile : (compile sheetSources sheetDeclarations).toOption.map
      (fun c => (c.graph.producer? "sheet.jpg").map (·.inputs)) =
      some (some ["hero.png", "tree.png"]) := by decide +kernel
  have hcompile' : (compile sheetSources sheetReversed).toOption.map
      (fun c => (c.graph.producer? "sheet.jpg").map (·.inputs)) =
      some (some ["tree.png", "hero.png"]) := by decide +kernel
  obtain ⟨c, hc, hinputs⟩ := exists_ok_of_toOption_map hcompile
  obtain ⟨c', hc', hinputs'⟩ := exists_ok_of_toOption_map hcompile'
  obtain ⟨-, hsame⟩ := @compile_permuted sheetSources _ _ hpermuted
  exact ⟨hpermuted, c, c', hc, hc', hinputs, hinputs', (hsame c c' hc hc').2.1⟩

end AssetPipeline
