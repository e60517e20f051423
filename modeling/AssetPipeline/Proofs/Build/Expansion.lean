import AssetPipeline.Proofs.Build.Steps

/-! Declarations expanded into edges, as a description of the result and not of the way to it. A
compilation that succeeds yields just this expansion. -/

namespace AssetPipeline

namespace Single

/-- `name` is the target with each `$filename`, from left to right, replaced by the stem. -/
inductive Filled (stem : List Char) : (target name : List Char) → Prop where
  | nil : Filled stem [] []
  | token {target name : List Char} (h : Filled stem target name) :
    Filled stem (stemToken ++ target) (stem ++ name)
  | char {c : Char} {target name : List Char} (hc : ¬ stemToken <+: c :: target)
    (h : Filled stem target name) : Filled stem (c :: target) (c :: name)

theorem expand_stemToken (stem text : List Char) :
    expand stem (stemToken ++ text) = stem ++ expand stem text := by
  have hcons : stemToken ++ text = '$' :: (stemToken.tail ++ text) := rfl
  have hprefix : stemToken.isPrefixOf ('$' :: (stemToken.tail ++ text)) = true :=
    List.isPrefixOf_iff_prefix.mpr (hcons ▸ List.prefix_append stemToken text)
  rw [hcons, expand, if_pos hprefix, List.drop_left' (by decide)]

theorem expand_char {c : Char} (stem : List Char) {text : List Char} (hc : ¬ stemToken <+: c :: text) :
    expand stem (c :: text) = c :: expand stem text := by
  rw [expand, if_neg fun hprefix => hc (List.isPrefixOf_iff_prefix.mp hprefix)]

theorem filled_expand (stem target : List Char) : Filled stem target (expand stem target) := by
  induction hlength : target.length using Nat.strongRecOn generalizing target with
  | ind n ih =>
      cases target with
      | nil =>
          rw [expand]
          exact .nil
      | cons c text =>
          by_cases hprefix : stemToken <+: c :: text
          · obtain ⟨rest, hrest⟩ := hprefix
            have hlt : rest.length < n := by
              have htoken : 0 < stemToken.length := by decide
              rw [← hlength, ← hrest, List.length_append]
              omega
            rw [← hrest, expand_stemToken]
            exact .token (ih _ hlt rest rfl)
          · rw [expand_char stem hprefix]
            exact .char hprefix (ih _ (by rw [← hlength, List.length_cons]; omega) text rfl)

theorem filled_iff {stem target name : List Char} :
    Filled stem target name ↔ name = expand stem target := by
  constructor
  · intro h
    induction h with
    | nil => rw [expand]
    | token h ih => rw [expand_stemToken, ih]
    | char hc h ih => rw [expand_char stem hc, ih]
  · rintro rfl
    exact filled_expand stem target

theorem forall₂_eq_some_iff {α β : Type} {f : α → Option β} (hf : ∀ x, (f x).isSome = true)
    {items : List α} {results : List β} :
    List.Forall₂ (fun x y => f x = some y) items results ↔ results = items.filterMap f := by
  induction items generalizing results with
  | nil => rw [List.forall₂_nil_left_iff, List.filterMap_nil]
  | cons x items ih =>
      obtain ⟨y, hy⟩ := Option.isSome_iff_exists.mp (hf x)
      rw [List.forall₂_cons_left_iff, List.filterMap_cons_some hy]
      constructor
      · rintro ⟨y', rest, hy', hrest, rfl⟩
        rw [ih.mp hrest, Option.some.inj (hy.symm.trans hy')]
      · rintro rfl
        exact ⟨y, _, hy, ih.mpr rfl, rfl⟩

/-- The edge that a single makes of one file: with its rule, from the file below `root` to the filled-in
target in the directory of the file. -/
def Makes (s : Single) (root file : String) (e : Edge) : Prop :=
  ∃ rule target name, s.rule = some rule ∧ s.target = some target ∧
    Filled (Path.fileStem file).toList target.toList name ∧
    e = { rule
          outputs := [Path.joinRoot (Path.parentDir file) (String.ofList name)]
          inputs := [Path.joinRoot root file]
          bindings := s.assignments.entries }

end Single

theorem Single.makes_rightUnique (s : Single) (root : String) : Relator.RightUnique (s.Makes root) := by
  rintro file e e' ⟨rule, target, name, hrule, htarget, hname, rfl⟩
    ⟨rule', target', name', hrule', htarget', hname', rfl⟩
  rw [hrule] at hrule'
  rw [htarget] at htarget'
  cases hrule'
  cases htarget'
  rw [filled_iff] at hname hname'
  rw [hname, hname']

namespace Builder

/-- The edges that a builder makes of the files it sees below `root`. -/
inductive Makes (root : String) (files : List String) : Builder → List Edge → Prop where
  | single {s : Single} {edges : List Edge} (h : List.Forall₂ (s.Makes root) files edges) :
    Makes root files (.single s) edges
  | bundle {b : Bundle} {rule : String} (hrule : b.rule = some rule) (htargets : b.targets ≠ [])
    (hfiles : files ≠ []) :
    Makes root files (.bundle b)
      [{ rule
         outputs := b.targets
         inputs := files.map (Path.joinRoot root)
         bindings := b.assignments.entries }]
  | idle {b : Bundle} (h : b.targets = [] ∨ files = []) : Makes root files (.bundle b) []

variable {g : BuildGraph} {b : Builder} {root : String} {files : List String} {edges : List Edge}

theorem makes_iff (h : b.Sound g) : b.Makes root files edges ↔ edges = b.edges root files := by
  obtain ⟨rule, hrule, -⟩ := h.rule_known
  cases b with
  | single s =>
      obtain ⟨target, htarget⟩ := h.has_target s rfl
      have hmakes : s.Makes root = fun file e => s.edge? root file = some e := by
        funext file e
        rw [Single.Makes, Single.edge?, Single.outputName, htarget, show s.rule = some rule from hrule]
        simp [Single.filled_iff, eq_comm]
      have hsome : ∀ file, (s.edge? root file).isSome = true := by
        intro file
        rw [Single.edge?, Single.outputName, htarget]
        rfl
      change _ ↔ edges = files.filterMap (s.edge? root)
      rw [← Single.forall₂_eq_some_iff hsome, ← hmakes]
      exact ⟨fun h => by cases h; assumption, .single⟩
  | bundle b =>
      replace hrule : b.rule = some rule := hrule
      rw [Builder.edges]
      constructor
      · intro hmakes
        cases hmakes with
        | bundle hrule' htargets hfiles =>
            rw [if_neg (not_or.mpr ⟨htargets, hfiles⟩), Bundle.edge, hrule']
            rfl
        | idle hidle => rw [if_pos hidle]
      · rintro rfl
        split_ifs with hidle
        · exact .idle hidle
        · rw [not_or] at hidle
          rw [Bundle.edge, hrule]
          exact .bundle hrule hidle.1 hidle.2

theorem Makes.unique {edges' : List Edge} (h : b.Makes root files edges)
    (h' : b.Makes root files edges') : edges = edges' := by
  cases h with
  | single h =>
      cases h' with
      | single h' => exact (Single.makes_rightUnique _ root).forall₂ h h'
  | bundle hrule htargets hfiles =>
      cases h' with
      | bundle hrule' =>
          rw [hrule] at hrule'
          cases hrule'
          rfl
      | idle hidle => exact absurd hidle (not_or.mpr ⟨htargets, hfiles⟩)
  | idle hidle =>
      cases h' with
      | bundle hrule htargets hfiles => exact absurd hidle (not_or.mpr ⟨htargets, hfiles⟩)
      | idle => rfl

theorem Makes.ascending (h : b.Makes root files edges) :
    ∀ e ∈ edges, e.bindings.Pairwise fun a b => a.1 < b.1 := by
  intro e he
  cases h with
  | @single s _ h =>
      obtain ⟨file, -, rule, target, name, -, -, -, rfl⟩ := exists_of_forall₂ h he
      exact s.assignments.ascending
  | @bundle b =>
      rw [List.mem_singleton.mp he]
      exact b.assignments.ascending
  | idle => cases he

end Builder

/-- `files` are those of `available` that match a pattern, in their order. -/
def Glob.Selects (pattern : String) (available files : List String) : Prop :=
  ∃ keeps : String → Bool,
    (∀ path ∈ available, Glob.matches path pattern = .ok (keeps path)) ∧ files = available.filter keeps

theorem Glob.selects_iff {pattern : String} {available files : List String} :
    Glob.Selects pattern available files ↔ available.filterM (Glob.matches · pattern) = .ok files := by
  rw [filterM_eq_ok_iff]
  constructor
  · rintro ⟨keeps, hkeeps, rfl⟩
    have hpasses : ∀ path ∈ available, passes (Glob.matches · pattern) path = keeps path := by
      intro path hpath
      rw [passes, hkeeps path hpath]
      rfl
    refine ⟨fun path hpath => ?_, List.filter_congr fun path hpath => (hpasses path hpath).symm⟩
    rw [hpasses path hpath]
    exact hkeeps path hpath
  · rintro ⟨hpasses, rfl⟩
    exact ⟨_, hpasses, rfl⟩

namespace Declarations

/-- The edges of the builders, one list for each: first of those over the source directory, with the
files that their patterns resolve to; then of those over the build directory, with the matching ones
among the outputs of the first. -/
structure ExpandsTo (d : Declarations) (sources : Sources) (first second : List (List Edge)) : Prop where
  source : List.Forall₂
    (fun b edges => ∃ files, sources.resolve b.pattern = .ok files ∧ b.Makes sources.root files edges)
    d.sourceBuilders first
  build : List.Forall₂
    (fun b edges => ∃ files, Glob.Selects b.pattern (first.flatten.flatMap (·.outputs)) files ∧
      b.Makes "." files edges)
    d.buildBuilders second

theorem ExpandsTo.unique {d : Declarations} {sources : Sources}
    {first first' second second' : List (List Edge)}
    (h : d.ExpandsTo sources first second) (h' : d.ExpandsTo sources first' second') :
    first = first' ∧ second = second' := by
  have hfirst : first = first' := by
    refine Relator.RightUnique.forall₂ ?_ h.source h'.source
    rintro b edges edges' ⟨files, hfiles, hmakes⟩ ⟨files', hfiles', hmakes'⟩
    rw [hfiles] at hfiles'
    cases hfiles'
    exact hmakes.unique hmakes'
  subst hfirst
  refine ⟨rfl, Relator.RightUnique.forall₂ ?_ h.build h'.build⟩
  rintro b edges edges' ⟨files, hfiles, hmakes⟩ ⟨files', hfiles', hmakes'⟩
  rw [Glob.selects_iff] at hfiles hfiles'
  rw [hfiles] at hfiles'
  cases hfiles'
  exact hmakes.unique hmakes'

end Declarations

namespace Compiled

variable {c c' : Compiled} {g : BuildGraph} {sources : Sources} {builders : List Builder}

theorem foldl_addPattern (seen patterns : List String) :
    patterns.foldl addPattern seen.eraseDups = (seen ++ patterns).eraseDups := by
  induction patterns generalizing seen with
  | nil => simp
  | cons pattern patterns ih =>
      have hadd : addPattern seen.eraseDups pattern = (seen ++ [pattern]).eraseDups := by
        rw [addPattern, List.eraseDups_append]
        by_cases hmem : pattern ∈ seen <;> simp [hmem, List.removeAll, List.eraseDups_cons]
      rw [List.foldl_cons, hadd, ih, List.append_assoc]
      rfl

/-- Phase one: each builder with the files that its pattern resolves to. -/
theorem foldlM_addSourceBuilder (hsound : ∀ b ∈ builders, b.Sound g)
    (h : builders.foldlM (addSourceBuilder sources) c = .ok c') :
    ∃ edges, List.Forall₂ (fun b edges => ∃ files, sources.resolve b.pattern = .ok files ∧
        b.Makes sources.root files edges) builders edges ∧
      c.Adds edges.flatten (builders.flatMap Builder.warnings) c' := by
  refine adds_foldlM (fun b hb c c' h => ?_) h
  obtain ⟨files, hfiles, hadd⟩ := addSourceBuilder_eq_ok_iff.mp h
  have hadds := adds_addBuilder hadd
  exact ⟨_, ⟨files, hfiles, (Builder.makes_iff (hsound b hb)).mpr rfl⟩,
    ⟨hadds.rules_eq, hadds.edges_eq, hadds.defaults_eq, hadds.outputs_eq, hadds.warnings_eq,
      hadds.wellFormed⟩⟩

/-- Phase two: each builder with the matching ones among the outputs that are available. -/
theorem foldlM_addBuildBuilder {available : List String} (hsound : ∀ b ∈ builders, b.Sound g)
    (h : builders.foldlM (addBuildBuilder available) c = .ok c') :
    ∃ edges, List.Forall₂ (fun b edges => ∃ files, Glob.Selects b.pattern available files ∧
        b.Makes "." files edges) builders edges ∧
      c.Adds edges.flatten (builders.flatMap Builder.warnings) c' := by
  refine adds_foldlM (fun b hb c c' h => ?_) h
  obtain ⟨files, hfiles, hadd⟩ := addBuildBuilder_eq_ok_iff.mp h
  exact ⟨_, ⟨files, Glob.selects_iff.mpr hfiles, (Builder.makes_iff (hsound b hb)).mpr rfl⟩,
    adds_addBuilder hadd⟩

theorem sourcePatterns_foldlM_addSourceBuilder
    (h : builders.foldlM (addSourceBuilder sources) c = .ok c') :
    c'.sourcePatterns = (builders.map Builder.pattern).foldl addPattern c.sourcePatterns := by
  rw [List.foldl_map]
  refine foldlM_view sourcePatterns (fun c b c' h => ?_) h
  obtain ⟨files, -, hadd⟩ := addSourceBuilder_eq_ok_iff.mp h
  obtain ⟨graph, -, rfl⟩ := addBuilder_eq_ok_iff.mp hadd
  rfl

theorem sourcePatterns_foldlM_addBuildBuilder {available : List String}
    (h : builders.foldlM (addBuildBuilder available) c = .ok c') :
    c'.sourcePatterns = c.sourcePatterns := by
  refine foldlM_keeps (P := fun c' => c'.sourcePatterns = c.sourcePatterns) (fun b _ c c' hc h => ?_) rfl h
  obtain ⟨files, -, hadd⟩ := addBuildBuilder_eq_ok_iff.mp h
  obtain ⟨graph, -, rfl⟩ := addBuilder_eq_ok_iff.mp hadd
  exact hc

end Compiled

variable {sources : Sources} {d : Declarations} {c : Compiled}

/-- What the phases of a compilation that succeeds yield: `mid` stands between them. -/
theorem compile_phases (h : compile sources d = .ok c) :
    ∃ graph mid first second, d.rules.foldlM Compiled.addRule {} = .ok graph ∧
      (∀ b ∈ d.builders, b.Sound graph) ∧
      d.sourceBuilders.foldlM (Compiled.addSourceBuilder sources) { graph } = .ok mid ∧
      d.ExpandsTo sources first second ∧
      Compiled.Adds { graph } first.flatten (d.sourceBuilders.flatMap Builder.warnings) mid ∧
      mid.Adds second.flatten (d.buildBuilders.flatMap Builder.warnings) c := by
  obtain ⟨graph, hrules, hsound, mid, hmid, hsecond⟩ := compile_eq_ok_iff.mp h
  obtain ⟨first, hfirst, hadds⟩ :=
    Compiled.foldlM_addSourceBuilder (fun b hb => hsound b (List.mem_of_mem_filter hb)) hmid
  obtain ⟨second, hsecond, hadds'⟩ :=
    Compiled.foldlM_addBuildBuilder (fun b hb => hsound b (List.mem_of_mem_filter hb)) hsecond
  rw [hadds.outputs_eq, List.nil_append] at hsecond
  exact ⟨graph, mid, first, second, hrules, hsound, hmid, ⟨hfirst, hsecond⟩, hadds, hadds'⟩

/-- What a compilation that succeeds yields, part by part. -/
theorem compile_adds (h : compile sources d = .ok c) :
    ∃ graph first second, d.rules.foldlM Compiled.addRule {} = .ok graph ∧
      d.ExpandsTo sources first second ∧
      Compiled.Adds { graph } (first.flatten ++ second.flatten)
        ((d.sourceBuilders ++ d.buildBuilders).flatMap Builder.warnings) c := by
  obtain ⟨graph, mid, first, second, hrules, -, -, hexpands, hadds, hadds'⟩ := compile_phases h
  refine ⟨graph, first, second, hrules, hexpands, ?_⟩
  rw [List.flatMap_append]
  exact hadds.trans hadds'

theorem compile_sourcePatterns (h : compile sources d = .ok c) :
    c.sourcePatterns = (d.sourceBuilders.map Builder.pattern).eraseDups := by
  obtain ⟨graph, -, -, mid, hfirst, hsecond⟩ := compile_eq_ok_iff.mp h
  calc
    c.sourcePatterns = mid.sourcePatterns := Compiled.sourcePatterns_foldlM_addBuildBuilder hsecond
    _ = (d.sourceBuilders.map Builder.pattern).foldl Compiled.addPattern [] :=
      Compiled.sourcePatterns_foldlM_addSourceBuilder hfirst
    _ = (d.sourceBuilders.map Builder.pattern).eraseDups := Compiled.foldl_addPattern [] _

/-- The edges of a compilation are those of the declarations, and its outputs are theirs. -/
theorem compile_edges (h : compile sources d = .ok c) :
    ∃ first second, d.ExpandsTo sources first second ∧
      c.graph.edges = first.flatten ++ second.flatten ∧ c.outputs = c.graph.edges.flatMap (·.outputs) := by
  obtain ⟨graph, first, second, hrules, hexpands, hadds⟩ := compile_adds h
  obtain ⟨-, hrules⟩ := Compiled.foldlM_addRule_eq_ok hrules
  have hedges : c.graph.edges = first.flatten ++ second.flatten := by
    rw [hadds.edges_eq, BuildGraph.foldlM_addRule_eq_ok hrules, List.nil_append]
  refine ⟨first, second, hexpands, hedges, ?_⟩
  rw [hadds.outputs_eq, hedges, List.nil_append]

/-- A compilation that succeeds yields the expansion of the declarations and nothing else. -/
theorem compile_eq_expansion (h : compile sources d = .ok c) :
    (∀ edges, (∃ first second, d.ExpandsTo sources first second ∧
        edges = first.flatten ++ second.flatten) ↔ edges = c.graph.edges) ∧
      c.outputs = c.graph.edges.flatMap (·.outputs) ∧
      c.sourcePatterns = (d.sourceBuilders.map Builder.pattern).eraseDups ∧
      c.warnings = (d.sourceBuilders ++ d.buildBuilders).flatMap Builder.warnings ∧
      c.graph.rules = d.rules.map RuleDecl.toRule ∧ c.graph.defaults = [] ∧
      ∀ e ∈ c.graph.edges, e.bindings.Pairwise fun a b => a.1 < b.1 := by
  obtain ⟨graph, _, _, hrules, -, hadds⟩ := compile_adds h
  obtain ⟨-, hrules⟩ := Compiled.foldlM_addRule_eq_ok hrules
  have hgraph := BuildGraph.foldlM_addRule_eq_ok hrules
  obtain ⟨first, second, hexpands, hedges, houtputs⟩ := compile_edges h
  refine ⟨fun edges => ?_, houtputs, compile_sourcePatterns h, hadds.warnings_eq, ?_, ?_, ?_⟩
  · rw [hedges]
    constructor
    · rintro ⟨first', second', hexpands', rfl⟩
      obtain ⟨rfl, rfl⟩ := hexpands.unique hexpands'
      rfl
    · rintro rfl
      exact ⟨first, second, hexpands, rfl⟩
  · rw [hadds.rules_eq, hgraph, List.nil_append]
  · rw [hadds.defaults_eq, hgraph]
  · intro e he
    rw [hedges, List.mem_append, List.mem_flatten, List.mem_flatten] at he
    rcases he with ⟨edges, hmem, he⟩ | ⟨edges, hmem, he⟩
    · obtain ⟨b, -, files, -, hmakes⟩ := exists_of_forall₂ hexpands.source hmem
      exact hmakes.ascending e he
    · obtain ⟨b, -, files, -, hmakes⟩ := exists_of_forall₂ hexpands.build hmem
      exact hmakes.ascending e he

/-- One picture, and an atlas made of what the pictures become. -/
def atlasSources : Sources := ⟨"src", fun _ => .ok ["art/hero.psd"]⟩

def atlasDeclarations : Declarations where
  rules := [{ name := "convert", command := some "tool $in $out" }]
  singles := [{ pattern := "**/*.psd", target := some "$filename.png", rule := some "convert" }]
  bundles := [{ pattern := "art/*.png", buildRelative := true, targets := ["atlas.png"],
                rule := some "convert" }]

def atlasCompiled : Compiled where
  graph :=
    { rules := [{ name := "convert", command := "tool $in $out" }]
      edges := [{ rule := "convert", outputs := ["art/hero.png"], inputs := ["src/art/hero.psd"] },
                { rule := "convert", outputs := ["atlas.png"], inputs := ["art/hero.png"] }]
      producers := [("atlas.png", 1), ("art/hero.png", 0)] }
  outputs := ["art/hero.png", "atlas.png"]
  sourcePatterns := ["**/*.psd"]

theorem compile_eq_expansion_atlas :
    compile atlasSources atlasDeclarations = .ok atlasCompiled ∧
      ∀ edges, (∃ first second, atlasDeclarations.ExpandsTo atlasSources first second ∧
        edges = first.flatten ++ second.flatten) ↔ edges = atlasCompiled.graph.edges := by
  have hcompile : compile atlasSources atlasDeclarations = .ok atlasCompiled := by decide +kernel
  exact ⟨hcompile, (compile_eq_expansion hcompile).1⟩

end AssetPipeline
