import AssetPipeline.Proofs.Build.Generated
import Mathlib.Data.List.Chain
import Mathlib.Logic.Relation

/-! Cycles in generated graphs. An edge that feeds itself is refused; longer cycles are not looked for.
Builders over the build directory see nothing but outputs of builders over the source directory, and
bookkeeping stands behind both, so the only way round is through the source directory: a file that is
matched there and made by an edge as well. -/

namespace AssetPipeline

namespace BuildGraph

/-- The path is an output of the first edge and an input of the second. -/
def FeedsBy (g : BuildGraph) (path : String) (e e' : Edge) : Prop :=
  e ∈ g.edges ∧ e' ∈ g.edges ∧ path ∈ e.outputs ∧ path ∈ e'.inputs

/-- Some output of the first edge is an input of the second. -/
def Feeds (g : BuildGraph) (e e' : Edge) : Prop :=
  ∃ path, g.FeedsBy path e e'

/-- No edge leads back to itself, over however many edges. -/
def Acyclic (g : BuildGraph) : Prop :=
  ∀ e, ¬ Relation.TransGen g.Feeds e e

variable {g : BuildGraph} {e e' : Edge} {path : String}

theorem WellFormed.eq_of_mem_outputs (h : g.WellFormed) (he : e ∈ g.edges) (he' : e' ∈ g.edges)
    (hpath : path ∈ e.outputs) (hpath' : path ∈ e'.outputs) : e = e' := by
  have hproducer := h.indexed.producer?_eq_some_iff_mem.mpr ⟨he, hpath⟩
  rw [h.indexed.producer?_eq_some_iff_mem.mpr ⟨he', hpath'⟩] at hproducer
  exact (Option.some.inj hproducer).symm

theorem WellFormed.not_feeds_self (h : g.WellFormed) (e : Edge) : ¬ g.Feeds e e := by
  rintro ⟨path, he, -, houtput, hinput⟩
  exact (h.edge_sound e he).output_not_input path houtput hinput

/-- An edge of a well-formed graph stands at one place only. -/
theorem WellFormed.notMem_of_append {front back : List Edge} (h : g.WellFormed)
    (hedges : g.edges = front ++ back) (he : e ∈ front) : e ∉ back := by
  intro hback
  obtain ⟨path, hpath⟩ := List.exists_mem_of_ne_nil _
    (h.edge_sound e (hedges ▸ List.mem_append_left _ he)).outputs_ne_nil
  exact h.disjoint_outputs hedges (List.mem_flatMap.mpr ⟨e, he, hpath⟩)
    (List.mem_flatMap.mpr ⟨e, hback, hpath⟩)

end BuildGraph

/-- Steps that go up lead nowhere back. -/
theorem lt_of_transGen {α : Type} {T : α → α → Prop} (rank : α → Nat)
    (hstep : ∀ x y, T x y → rank x < rank y) {a b : α} (h : Relation.TransGen T a b) :
    rank a < rank b := by
  induction h with
  | single hab => exact hstep _ _ hab
  | tail _ hyb ih => exact Nat.lt_trans ih (hstep _ _ hyb)

theorem lt_of_isChain {α : Type} (rank : α → Nat) {a b : α} {l : List α}
    (h : (a :: (l ++ [b])).IsChain fun x y => rank x < rank y) : rank a < rank b := by
  have hranks : ((a :: (l ++ [b])).map rank).Pairwise (· < ·) :=
    List.isChain_iff_pairwise.mp ((List.isChain_map rank).mpr h)
  exact List.rel_of_pairwise_cons hranks (List.mem_map_of_mem (List.mem_append_right _ List.mem_cons_self))

/-- The path is that of a source file which a builder over the source directory matches. -/
def Declarations.SourcePath (d : Declarations) (sources : Sources) (path : String) : Prop :=
  ∃ b ∈ d.sourceBuilders, ∃ files, sources.resolve b.pattern = .ok files ∧
    ∃ file ∈ files, path = Path.joinRoot sources.root file

theorem Builder.Makes.mem_inputs {b : Builder} {root path : String} {files : List String}
    {edges : List Edge} {e : Edge} (h : b.Makes root files edges) (he : e ∈ edges)
    (hpath : path ∈ e.inputs) : ∃ file ∈ files, path = Path.joinRoot root file := by
  cases h with
  | single h =>
      obtain ⟨file, hfile, rule, target, name, -, -, -, rfl⟩ := exists_of_forall₂ h he
      exact ⟨file, hfile, List.mem_singleton.mp hpath⟩
  | bundle =>
      rw [List.mem_singleton.mp he] at hpath
      obtain ⟨file, hfile, rfl⟩ := List.mem_map.mp hpath
      exact ⟨file, hfile, rfl⟩
  | idle => cases he

namespace Declarations.ExpandsTo

variable {d : Declarations} {sources : Sources} {first second : List (List Edge)} {e : Edge}
  {path : String}

theorem sourcePath_of_mem (h : d.ExpandsTo sources first second) (he : e ∈ first.flatten)
    (hpath : path ∈ e.inputs) : d.SourcePath sources path := by
  obtain ⟨edges, hedges, he⟩ := List.mem_flatten.mp he
  obtain ⟨b, hb, files, hfiles, hmakes⟩ := exists_of_forall₂ h.source hedges
  exact ⟨b, hb, files, hfiles, hmakes.mem_inputs he hpath⟩

/-- The inputs of a builder over the build directory are outputs of those over the source directory. -/
theorem exists_of_mem_second (h : d.ExpandsTo sources first second) (he : e ∈ second.flatten)
    (hpath : path ∈ e.inputs) : ∃ e' ∈ first.flatten, path ∈ e'.outputs := by
  obtain ⟨edges, hedges, he⟩ := List.mem_flatten.mp he
  obtain ⟨b, -, files, ⟨keeps, -, rfl⟩, hmakes⟩ := exists_of_forall₂ h.build hedges
  obtain ⟨file, hfile, hpath⟩ := hmakes.mem_inputs he hpath
  have hdot : Path.joinRoot "." file = file := if_pos (Or.inr rfl)
  rw [hpath, hdot]
  exact List.mem_flatMap.mp (List.mem_of_mem_filter hfile)

end Declarations.ExpandsTo

/-! ### Generated graphs -/

/-- How far from the sources an edge of a generated graph stands: builders over the build directory
behind those over the source directory, then the file list, then the build file. -/
def stage (o : RegenOptions) (sourcePatterns : List String) (second : List Edge) (e : Edge) : Nat :=
  if e = Regeneration.generateEdge o sourcePatterns then 3
  else if Regeneration.fileListEdge? o sourcePatterns = some e then 2
  else if e ∈ second then 1
  else 0

section Generated

variable {d : Declarations} {sources : Sources} {o : RegenOptions} {sourcePatterns : List String}
  {first second : List (List Edge)} {g : BuildGraph} {e e' : Edge} {path : String}

/-- Where no source file is passed on, one edge feeds another at a later stage. -/
theorem stage_lt_of_feedsBy (hg : g.WellFormed) (hexpands : d.ExpandsTo sources first second)
    (hedges : g.edges = first.flatten ++ (second.flatten ++ Regeneration.edges o sourcePatterns))
    (h : g.FeedsBy path e e') (hpath : ¬ d.SourcePath sources path) :
    stage o sourcePatterns second.flatten e < stage o sourcePatterns second.flatten e' := by
  obtain ⟨he, he', houtput, hinput⟩ := h
  have hbookkeeping : ∀ e ∈ Regeneration.edges o sourcePatterns, e ∈ g.edges := by
    intro e he
    rw [hedges]
    exact List.mem_append_right _ (List.mem_append_right _ he)
  rw [hedges, List.mem_append, List.mem_append, Regeneration.mem_edges_iff] at he'
  -- The cases are those of the fed edge, from the builders over the source directory to the bookkeeping.
  rcases he' with hfirst | hsecond | rfl | hlist | rfl | rfl
  · exact absurd (hexpands.sourcePath_of_mem hfirst hinput) hpath
  · obtain ⟨maker, hmaker, hmakes⟩ := hexpands.exists_of_mem_second hsecond hinput
    have hmem : maker ∈ g.edges := hedges ▸ List.mem_append_left _ hmaker
    rw [hg.eq_of_mem_outputs he hmem houtput hmakes]
    have hapart := hg.notMem_of_append hedges hmaker
    rw [List.mem_append, Regeneration.mem_edges_iff, not_or, not_or, not_or, not_or] at hapart
    obtain ⟨hnotSecond, -, hnotList, hnotGenerate, -⟩ := hapart
    rw [stage, if_neg hnotGenerate, if_neg hnotList, if_neg hnotSecond, stage]
    split_ifs <;> omega
  · cases hinput
  · -- The file list waits for the dirty marker alone, which nothing stands before.
    have hdirty : Regeneration.dirtyEdge o ∈ g.edges :=
      hbookkeeping _ (Regeneration.mem_edges_iff.mpr (Or.inl rfl))
    obtain ⟨hrule, -, hinputs⟩ := Regeneration.fileListEdge?_eq_some hlist
    rw [hinputs, List.mem_singleton] at hinput
    rw [hg.eq_of_mem_outputs he hdirty houtput (List.mem_singleton.mpr hinput)]
    have hnotGenerate : Regeneration.dirtyEdge o ≠ Regeneration.generateEdge o sourcePatterns :=
      fun heq => absurd (congrArg Edge.rule heq) (show phony ≠ generateRule by decide)
    have hnotList : Regeneration.fileListEdge? o sourcePatterns ≠ some (Regeneration.dirtyEdge o) :=
      fun heq => absurd (Regeneration.fileListEdge?_eq_some heq).1 (show phony ≠ refreshRule by decide)
    have hlistStage : 2 ≤ stage o sourcePatterns second.flatten e' := by
      rw [stage, if_pos hlist]
      split_ifs <;> omega
    rw [stage, if_neg hnotGenerate, if_neg hnotList]
    split_ifs <;> omega
  · have hnotSelf : e ≠ Regeneration.generateEdge o sourcePatterns := by
      rintro rfl
      exact hg.not_feeds_self _ ⟨path, he, he, houtput, hinput⟩
    rw [stage, if_neg hnotSelf, stage, if_pos rfl]
    split_ifs <;> omega
  · cases hinput

end Generated

variable {sources : Sources} {source : String} {o : RegenOptions} {c : Compiled}

/-- No edge of a generated graph feeds itself. In every sequence of edges that comes back to the first, each
edge feeding the next, there is one that feeds the next by nothing but source files that a builder matches.
So where no edge makes a matched source file, the graph has no cycle. -/
theorem generated_cycles (h : generateFromSource sources source o = .ok c) :
    ∃ d, Script.evaluate source = .ok d ∧ (∀ e, ¬ c.graph.Feeds e e) ∧
      (∀ e es, (e :: (es ++ [e])).IsChain c.graph.Feeds → ∃ front x y back,
        e :: (es ++ [e]) = front ++ x :: y :: back ∧ c.graph.Feeds x y ∧
          ∀ path, c.graph.FeedsBy path x y → d.SourcePath sources path) ∧
      ((∀ e ∈ c.graph.edges, ∀ path ∈ e.outputs, ¬ d.SourcePath sources path) → c.graph.Acyclic) := by
  obtain ⟨d, compiled, hd, hcompiled, hwired⟩ := generateFromSource_wired h
  obtain ⟨first, second, hexpands, hedges, -⟩ := compile_edges hcompiled
  have hall : c.graph.edges = first.flatten ++
      (second.flatten ++ Regeneration.edges o compiled.sourcePatterns) := by
    rw [hwired.edges_eq, hedges, List.append_assoc]
  obtain ⟨rank, hforward⟩ : ∃ rank : Edge → Nat, ∀ x y path, c.graph.FeedsBy path x y →
      ¬ d.SourcePath sources path → rank x < rank y :=
    ⟨_, fun _ _ _ => stage_lt_of_feedsBy hwired.wellFormed hexpands hall⟩
  refine ⟨d, hd, hwired.wellFormed.not_feeds_self, fun e es hchain => ?_, fun hapart e hcycle => ?_⟩
  · rw [List.isChain_iff_forall_rel_of_append_cons_cons] at hchain
    by_contra hnone
    -- Each edge of the sequence would stand behind the one before it, and so the first behind itself.
    have hups : (e :: (es ++ [e])).IsChain fun x y => rank x < rank y := by
      rw [List.isChain_iff_forall_rel_of_append_cons_cons]
      intro x y front back hsplit
      by_contra hlt
      refine hnone ⟨front, x, y, back, hsplit, hchain hsplit, fun path hfeeds => ?_⟩
      by_contra hpath
      exact hlt (hforward x y path hfeeds hpath)
    exact Nat.lt_irrefl _ (lt_of_isChain rank hups)
  · refine Nat.lt_irrefl _ (lt_of_transGen rank ?_ hcycle)
    rintro x y ⟨path, hfeeds⟩
    exact hforward x y path hfeeds (hapart x hfeeds.1 path hfeeds.2.2.1)

theorem generated_cycles_portrait :
    ∃ c, generateFromSource ⟨"src", fun _ => .ok ["a b.psd"]⟩ portraitSource
        (.default "assetman" "src") = .ok c ∧ c.graph.Acyclic := by
  obtain ⟨c, hc, -, -, hapart⟩ := exists_generated_portrait
  obtain ⟨d, hd, -, -, hacyclic⟩ := generated_cycles hc
  refine ⟨c, hc, hacyclic fun e he path hpath hsource => hapart e he path hpath ?_⟩
  obtain ⟨b, -, files, hfiles, file, hfile, rfl⟩ := hsource
  obtain ⟨glob, -, hfiles⟩ := bind_eq_ok_iff.mp hfiles
  cases hfiles
  rw [List.mem_singleton.mp (List.mem_of_mem_filter hfile)]
  decide

/-- Two builders, of which each makes what the other matches. -/
def loopSource : String :=
  "rule('c').command('x') single('*.a').to('x.b').using('c') single('*.b').to('f.a').using('c')"

def loopDeclarations : Declarations where
  rules := [{ name := "c", command := some "x" }]
  singles := [(Single.withTarget { pattern := "*.a" } "x.b").withRule "c",
    (Single.withTarget { pattern := "*.b" } "f.a").withRule "c"]

theorem evaluate_loopSource : Script.evaluate loopSource = .ok loopDeclarations :=
  Script.evaluate_eq_ok_of_reading 20 (by decide +kernel)

/-- The edges that the two builders make of one file each. -/
def loopEdges : Edge × Edge :=
  ({ rule := "c", outputs := ["x.b"], inputs := ["f.a"] },
    { rule := "c", outputs := ["f.a"], inputs := ["x.b"] })

/-- In a source directory that is the build directory as well, generated edges can feed each other in a
circle. -/
theorem generated_loop :
    ∃ c, generateFromSource ⟨".", fun _ => .ok ["f.a", "x.b"]⟩ loopSource
        (.default "assetman" ".") = .ok c ∧ ¬ c.graph.Acyclic := by
  have hloop : ((generateFromSource ⟨".", fun _ => .ok ["f.a", "x.b"]⟩ loopSource
      (.default "assetman" ".")).toOption.map fun c =>
        decide (loopEdges.1 ∈ c.graph.edges ∧ loopEdges.2 ∈ c.graph.edges)) = some true := by
    rw [generateFromSource, evaluate_loopSource]
    decide +kernel
  obtain ⟨c, hc, hloop⟩ := exists_ok_of_toOption_map hloop
  obtain ⟨hfirst, hsecond⟩ := of_decide_eq_true hloop
  have hto : c.graph.Feeds loopEdges.1 loopEdges.2 :=
    ⟨"x.b", hfirst, hsecond, List.mem_singleton_self _, List.mem_singleton_self _⟩
  have hback : c.graph.Feeds loopEdges.2 loopEdges.1 :=
    ⟨"f.a", hsecond, hfirst, List.mem_singleton_self _, List.mem_singleton_self _⟩
  exact ⟨c, hc, fun hacyclic => hacyclic _ ((Relation.TransGen.single hto).tail hback)⟩

end AssetPipeline
