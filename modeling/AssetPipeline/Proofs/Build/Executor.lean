import AssetPipeline.Proofs.Build.Generated
import AssetPipeline.Proofs.Ninja.Continuation
import AssetPipeline.Proofs.Ninja.PathLists

/-! Build files as the executor reads them: how it cuts a generated one into lines, and what it takes
for the paths of an edge or of the defaults. What the generator writes of its own accord is escaped, and
so are all paths; only commands and variable values stand as they were given. So the lines of a generated
build file are those that were written unless one of these texts ends in a dollar sign of its own, and
paths are read as they were written unless one is empty or holds a bar, for which there is no escape. -/

namespace AssetPipeline

variable {sources : Sources} {source : String} {o : RegenOptions} {c : Compiled}

/-! ### Lines -/

namespace Regeneration

theorem dangles_word (text : String) : Ninja.dangles (word text).toList = false :=
  Ninja.dangles_escapeValue _

/-- The dollar sign at the end of a program's name is escaped. -/
example : Ninja.dangles (word "make$").toList = false := by
  decide +kernel

/-- Among the bookkeeping rules only the one that cleans up has a command that was given. -/
theorem forall_rules_iff (o : RegenOptions) :
    (∀ r ∈ rules o, Ninja.dangles r.command.toList = false ∧
        ∀ text, r.description = some text → Ninja.dangles text.toList = false) ↔
      Ninja.dangles o.cleanCommand.toList = false := by
  have hrefresh : Ninja.dangles (word o.program ++ " " ++ refreshCommand
      ++ " --root $root --output $out $patterns").toList = false := by
    rw [String.toList_append, String.toList_append, String.toList_append, List.append_assoc,
      List.append_assoc, Ninja.dangles_append (dangles_word _), Ninja.dangles_append (by decide),
      Ninja.dangles_append (by decide)]
    decide
  have hgenerate : Ninja.dangles (word o.program ++ " " ++ word o.srcRoot).toList = false := by
    rw [String.toList_append, String.toList_append, List.append_assoc,
      Ninja.dangles_append (dangles_word _), Ninja.dangles_append (by decide), dangles_word]
  have hupdating : Ninja.dangles "Updating file list...".toList = false := by decide
  have hrunning : Ninja.dangles "Re-running assetman...".toList = false := by decide
  have hcleaning : Ninja.dangles "Cleaning built files...".toList = false := by decide
  simp only [rules, List.forall_mem_cons, Option.some.injEq, forall_eq', hrefresh, hgenerate,
    hupdating, hrunning, hcleaning, true_and, and_true]
  exact and_iff_left (List.forall_mem_nil _)

theorem dangles_binding {o : RegenOptions} {sourcePatterns : List String} {e : Edge}
    (he : e ∈ edges o sourcePatterns) :
    ∀ b ∈ e.bindings, Ninja.dangles b.2.toList = false := by
  have hpatterns := Ninja.dangles_escapeValue (Shell.join sourcePatterns)
  by_cases hempty : sourcePatterns = []
  · simp [edges, fileListEdge?, hempty] at he
    rcases he with rfl | rfl | rfl <;> simp
  · simp [edges, fileListEdge?, hempty] at he
    rcases he with rfl | rfl | rfl | rfl <;> simp [hpatterns, dangles_word]

end Regeneration

theorem compile_rules {d : Declarations} (h : compile sources d = .ok c) :
    c.graph.rules = d.rules.map RuleDecl.toRule := by
  obtain ⟨graph, _, _, hrules, -, hadds⟩ := compile_adds h
  obtain ⟨-, hrules⟩ := Compiled.foldlM_addRule_eq_ok hrules
  rw [hadds.rules_eq, BuildGraph.foldlM_addRule_eq_ok hrules, List.nil_append]

/-- The rules of a compilation dangle where the declared commands do. -/
theorem forall_declaredRules_iff (rules : List RuleDecl) :
    (∀ r ∈ rules.map RuleDecl.toRule, Ninja.dangles r.command.toList = false ∧
        ∀ text, r.description = some text → Ninja.dangles text.toList = false) ↔
      ∀ r ∈ rules, ∀ command, r.command = some command → Ninja.dangles command.toList = false := by
  rw [List.forall_mem_map]
  refine forall₂_congr fun r _ => ?_
  cases hcommand : r.command with
  | none => simp [RuleDecl.toRule, hcommand, Ninja.dangles]
  | some command => simp [RuleDecl.toRule, hcommand]

/-- The executor sees the lines of a generated build file as they were written exactly if neither the
cleaning command, nor a declared command, nor a value assigned on an edge ends in a dollar sign that is
not escaped. -/
theorem logicalLines_generated_iff (h : generateFromSource sources source o = .ok c) :
    ∃ d compiled, Script.evaluate source = .ok d ∧ compile sources d = .ok compiled ∧
      (Ninja.logicalLines c.graph.render.toList = c.graph.render.toList.splitOn '\n' ↔
        Ninja.dangles o.cleanCommand.toList = false ∧
        (∀ r ∈ d.rules, ∀ command, r.command = some command →
          Ninja.dangles command.toList = false) ∧
        ∀ e ∈ compiled.graph.edges, ∀ b ∈ e.bindings, Ninja.dangles b.2.toList = false) := by
  obtain ⟨d, compiled, hd, hcompiled, hwired⟩ := generateFromSource_wired h
  refine ⟨d, compiled, hd, hcompiled, ?_⟩
  have hbookkeeping : ∀ e ∈ Regeneration.edges o compiled.sourcePatterns, ∀ b ∈ e.bindings,
      Ninja.dangles b.2.toList = false := fun e he => Regeneration.dangles_binding he
  rw [Ninja.logicalLines_render_iff hwired.wellFormed fun path => oneLine_of_mem_defaults h,
    hwired.rules_eq, hwired.edges_eq, List.forall_mem_append, List.forall_mem_append,
    compile_rules hcompiled, forall_declaredRules_iff, Regeneration.forall_rules_iff]
  tauto

theorem logicalLines_generated_portrait :
    ∃ c d compiled, generateFromSource ⟨"src", fun _ => .ok ["a b.psd"]⟩ portraitSource
        (.default "assetman" "src") = .ok c ∧
      Script.evaluate portraitSource = .ok d ∧
      compile ⟨"src", fun _ => .ok ["a b.psd"]⟩ d = .ok compiled ∧
      (Ninja.logicalLines c.graph.render.toList = c.graph.render.toList.splitOn '\n' ↔
        Ninja.dangles defaultCleanCommand.toList = false ∧
        (∀ r ∈ d.rules, ∀ command, r.command = some command →
          Ninja.dangles command.toList = false) ∧
        ∀ e ∈ compiled.graph.edges, ∀ b ∈ e.bindings, Ninja.dangles b.2.toList = false) := by
  obtain ⟨c, hc, -⟩ := exists_generated_portrait
  obtain ⟨d, compiled, hd, hcompiled, hiff⟩ := logicalLines_generated_iff hc
  exact ⟨c, d, compiled, hc, hd, hcompiled, hiff⟩

/-- A description that assigns a single dollar sign. -/
def dollarSource : String :=
  "rule('c').command('x') single('*.psd').to('y').assign('k', '$').using('c')"

def dollarDeclarations : Declarations where
  rules := [{ name := "c", command := some "x" }]
  singles := [((Single.withTarget { pattern := "*.psd" } "y").assign "k" "$").withRule "c"]

theorem evaluate_dollarSource : Script.evaluate dollarSource = .ok dollarDeclarations :=
  Script.evaluate_eq_ok_of_reading 20 (by decide +kernel)

/-- A dollar sign at the end of a value takes the line below with it, here the edge of the dirty
marker. -/
theorem logicalLines_generated_dollar :
    ∃ c, generateFromSource ⟨"src", fun _ => .ok ["a.psd"]⟩ dollarSource
        (.default "assetman" "src") = .ok c ∧
      ["  k = $", "build .dirty: phony"] <:+: Ninja.lines c.graph ∧
      Ninja.logicalLines c.graph.render.toList ≠ c.graph.render.toList.splitOn '\n' := by
  have hlines : ((generateFromSource ⟨"src", fun _ => .ok ["a.psd"]⟩ dollarSource
      (.default "assetman" "src")).toOption.map fun c =>
        decide (["  k = $", "build .dirty: phony"] <:+: Ninja.lines c.graph ∧
          ∃ e ∈ c.graph.edges, ∃ b ∈ e.bindings, Ninja.dangles b.2.toList = true)) = some true := by
    rw [generateFromSource, evaluate_dollarSource]
    decide +kernel
  cases hc : generateFromSource ⟨"src", fun _ => .ok ["a.psd"]⟩ dollarSource
      (.default "assetman" "src") with
  | error fault =>
      rw [hc] at hlines
      cases hlines
  | ok c =>
      rw [hc] at hlines
      obtain ⟨hwithin, e, he, b, hb, hdangles⟩ := of_decide_eq_true (Option.some.inj hlines)
      refine ⟨c, rfl, hwithin, fun heq => ?_⟩
      obtain ⟨_, _, -, -, hwired⟩ := generateFromSource_wired hc
      have hsettled := (Ninja.logicalLines_render_iff hwired.wellFormed
        fun path => oneLine_of_mem_defaults hc).mp heq
      rw [hsettled.2 e he b hb] at hdangles
      cases hdangles

/-! ### Paths -/

theorem defaultLines_generated (h : generateFromSource sources source o = .ok c) :
    Ninja.defaultLines c.graph.defaults = ["", "default " ++ Ninja.joinPaths c.graph.defaults] := by
  obtain ⟨d, compiled, -, -, hwired⟩ := generateFromSource_wired h
  have hne : c.graph.defaults ≠ [] := by
    rw [hwired.defaults_eq, Regeneration.defaults]
    split_ifs with hempty
    · exact List.cons_ne_nil _ _
    · exact hempty
  rw [Ninja.defaultLines, if_neg hne]

/-- The executor reads the line of an accepted edge as its outputs, its rule and its inputs exactly if
none of its paths is empty or holds a bar; so it does with the default targets of a generated graph. -/
theorem paths_read_back_iff (calls : List GraphCall) :
    (∀ e g, (BuildGraph.afterCalls {} calls).addEdge e = .ok g →
      (Ninja.BuildLine.ofText? (Ninja.buildLine e) =
          some { outputs := e.outputs, implicitOutputs := [], rule := e.rule, inputs := e.inputs,
                 implicitInputs := [] } ↔
        ∀ path ∈ e.outputs ++ e.inputs, Ninja.IsReadable path)) ∧
      ∀ sources source o c, generateFromSource sources source o = .ok c →
        ∃ line, Ninja.defaultLines c.graph.defaults = ["", line] ∧
          (Ninja.defaultPaths? line = some c.graph.defaults ↔
            ∀ path ∈ c.graph.defaults, Ninja.IsReadable path) := by
  constructor
  · intro e g hadd
    have hg : (BuildGraph.afterCalls {} calls).WellFormed :=
      BuildGraph.wellFormed_empty.afterCalls calls
    obtain ⟨-, hedges⟩ := BuildGraph.addEdge_eq_ok_iff.mp hadd
    have he : e ∈ g.edges := by simp [hedges]
    exact Ninja.BuildLine.ofText?_buildLine_iff ((hg.addEdge hadd).edge_rule_valid he)
  · intro sources source o c h
    exact ⟨_, defaultLines_generated h, Ninja.defaultPaths?_eq_some_iff⟩

/-- A bar in an accepted path makes two paths of it, of which the second is implicit, and an accepted
path that is empty is not read at all. -/
theorem bar_read_as_separator :
    (BuildGraph.addEdge (BuildGraph.afterCalls {} []) { rule := phony, outputs := ["a|b"] }).isOk = true ∧
      Ninja.BuildLine.ofText? (Ninja.buildLine { rule := phony, outputs := ["a|b"] }) =
        some { outputs := ["a"], implicitOutputs := ["b"], rule := phony, inputs := [] } ∧
      (BuildGraph.addEdge (BuildGraph.afterCalls {} []) { rule := phony, outputs := ["a", ""] }).isOk =
        true ∧
      Ninja.BuildLine.ofText? (Ninja.buildLine { rule := phony, outputs := ["a", ""] }) =
        some { outputs := ["a"], rule := phony, inputs := [] } := by
  decide

end AssetPipeline
