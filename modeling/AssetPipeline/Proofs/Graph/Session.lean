import AssetPipeline.Build.Regeneration
import AssetPipeline.Proofs.Graph.WellFormed

/-! Graphs that sequences of calls reach. Any call may fail, and the wiring of the bookkeeping edges may
stop half-way; what it did until then is still made of accepted rules and edges. So every graph that
calls reach is well formed. -/

namespace AssetPipeline

namespace GraphEdit

variable {P : BuildGraph → Prop} {first second : GraphEdit Unit} {g g' : BuildGraph}

theorem run_seq : (do first; second : GraphEdit Unit).run.run g =
    match first.run.run g with
    | (.ok (), next) => second.run.run next
    | (.error error, next) => (.error error, next) := by
  simp only [bind, ExceptT.run, ExceptT.bind, ExceptT.mk, StateT.run, StateT.bind, ExceptT.bindCont]
  rcases first g with ⟨_ | _, next⟩ <;> rfl

theorem run_change (step : BuildGraph → Except GraphError BuildGraph) :
    (change step).run.run g =
    match step g with
    | .ok next => (.ok (), next)
    | .error error => (.error error, g) := by
  change (match step g with
    | .ok graph => (set graph : GraphEdit Unit)
    | .error error => throw error).run.run g = _
  cases step g <;> rfl

/-- A change that is refused leaves the graph as it was. -/
theorem eq_of_run_change_error {step : BuildGraph → Except GraphError BuildGraph} {error : GraphError}
    (h : (change step).run.run g = (.error error, g')) : g' = g := by
  rw [run_change] at h
  cases hstep : step g with
  | ok next =>
      rw [hstep] at h
      cases h
  | error =>
      rw [hstep] at h
      exact (congrArg Prod.snd h).symm

/-! ### Edits that succeed -/

theorem apply_change (step : BuildGraph → Except GraphError BuildGraph) :
    (change step).apply g = step g := by
  rw [apply, run_change]
  cases step g <;> rfl

theorem apply_seq : (do first; second : GraphEdit Unit).apply g = first.apply g >>= second.apply := by
  rw [apply, apply, run_seq]
  rcases first.run.run g with ⟨_ | _, next⟩ <;> rfl

theorem apply_forM {α : Type} (edit : α → GraphEdit Unit) (items : List α) :
    (items.forM edit).apply g = items.foldlM (fun g x => (edit x).apply g) g := by
  induction items generalizing g with
  | nil => rfl
  | cons x items ih =>
      have hseq : ((x :: items).forM edit).apply g = (edit x).apply g >>= (items.forM edit).apply :=
        apply_seq
      rw [hseq, List.foldlM_cons]
      exact bind_congr fun _ => ih

theorem apply_wireRegeneration (o : RegenOptions) (outputs sourcePatterns : List String) :
    (wireRegeneration o outputs sourcePatterns).apply g = do
      let g ← (Regeneration.rules o).foldlM BuildGraph.addRule g
      let g ← (Regeneration.edges o sourcePatterns).foldlM BuildGraph.addEdge g
      return { g with defaults := Regeneration.defaults o outputs } := by
  rw [wireRegeneration, apply_seq, apply_forM]
  simp only [addRule, apply_change]
  refine bind_congr fun g => ?_
  rw [apply_seq, apply_forM]
  simp only [addEdge, apply_change]
  rfl

/-! ### Edits that succeed or fail -/

/-- The graph that an edit leaves behind, whether it fails or not. -/
def after (edit : GraphEdit Unit) (g : BuildGraph) : BuildGraph :=
  (Id.run (edit.run.run g)).2

/-- An edit keeps a property of graphs, also where it stops half-way. -/
def Keeps (P : BuildGraph → Prop) (edit : GraphEdit Unit) : Prop :=
  ∀ g, P g → P (edit.after g)

theorem Keeps.seq (hfirst : Keeps P first) (hsecond : Keeps P second) :
    Keeps P (do first; second) := by
  intro g hg
  have hnext := hfirst g hg
  rw [after, run_seq]
  rw [after] at hnext
  rcases hrun : first.run.run g with ⟨_ | _, next⟩ <;> rw [hrun] at hnext
  · exact hnext
  · exact hsecond next hnext

theorem Keeps.forM {α : Type} {edit : α → GraphEdit Unit} (h : ∀ x, Keeps P (edit x))
    (items : List α) : Keeps P (items.forM edit) := by
  induction items with
  | nil => exact fun _ hg => hg
  | cons x items ih => exact (h x).seq ih

theorem Keeps.change {step : BuildGraph → Except GraphError BuildGraph}
    (h : ∀ {g g'}, P g → step g = .ok g' → P g') : Keeps P (change step) := by
  intro g hg
  rw [after, run_change]
  cases hstep : step g with
  | ok next => exact h hg hstep
  | error error => exact hg

theorem keeps_addRule (r : Rule) : Keeps BuildGraph.WellFormed (addRule r) :=
  .change fun hg hadd => hg.addRule hadd

theorem keeps_addEdge (e : Edge) : Keeps BuildGraph.WellFormed (addEdge e) :=
  .change fun hg hadd => hg.addEdge hadd

theorem keeps_setDefaults (paths : List String) : Keeps BuildGraph.WellFormed (setDefaults paths) :=
  fun _ hg => hg.setDefaults paths

theorem keeps_wireRegeneration (o : RegenOptions) (outputs sourcePatterns : List String) :
    Keeps BuildGraph.WellFormed (wireRegeneration o outputs sourcePatterns) :=
  (Keeps.forM keeps_addRule _).seq ((Keeps.forM keeps_addEdge _).seq (keeps_setDefaults _))

end GraphEdit

/-- A call on a graph. -/
inductive GraphCall where
  | addRule (r : Rule)
  | addEdge (e : Edge)
  | setDefaults (paths : List String)
  | wireRegeneration (o : RegenOptions) (outputs sourcePatterns : List String)

namespace GraphCall

def edit : GraphCall → GraphEdit Unit
  | addRule r => .addRule r
  | addEdge e => .addEdge e
  | setDefaults paths => .setDefaults paths
  | wireRegeneration o outputs sourcePatterns => .wireRegeneration o outputs sourcePatterns

theorem keeps_wellFormed (call : GraphCall) : call.edit.Keeps BuildGraph.WellFormed := by
  cases call with
  | addRule r => exact GraphEdit.keeps_addRule r
  | addEdge e => exact GraphEdit.keeps_addEdge e
  | setDefaults paths => exact GraphEdit.keeps_setDefaults paths
  | wireRegeneration o outputs sourcePatterns =>
      exact GraphEdit.keeps_wireRegeneration o outputs sourcePatterns

end GraphCall

namespace BuildGraph

/-- The graph after calls one after another, those that fail included. -/
def afterCalls (g : BuildGraph) (calls : List GraphCall) : BuildGraph :=
  calls.foldl (fun g call => call.edit.after g) g

theorem WellFormed.afterCalls {g : BuildGraph} (h : g.WellFormed) (calls : List GraphCall) :
    (g.afterCalls calls).WellFormed := by
  induction calls generalizing g with
  | nil => exact h
  | cons call calls ih => exact ih (call.keeps_wellFormed g h)

/-- Whatever calls are made, and whichever of them fail, the graph is well formed. The producer of a
path is the one edge that has it as an output, and a rule or an edge that is refused changes nothing. -/
theorem afterCalls_consistent (calls : List GraphCall) :
    let g := afterCalls {} calls
    g.WellFormed ∧
      (∀ path e, g.producer? path = some e ↔ e ∈ g.edges ∧ path ∈ e.outputs) ∧
      (∀ path, g.producer? path = none ↔ ∀ e ∈ g.edges, path ∉ e.outputs) ∧
      (∀ (path : String) (i j : Nat) (e e' : Edge), g.edges[i]? = some e → g.edges[j]? = some e' →
        path ∈ e.outputs → path ∈ e'.outputs → i = j) ∧
      (∀ r error g', (GraphEdit.addRule r).run.run g = (.error error, g') → g' = g) ∧
      (∀ e error g', (GraphEdit.addEdge e).run.run g = (.error error, g') → g' = g) := by
  intro g
  have hg : g.WellFormed := wellFormed_empty.afterCalls calls
  refine ⟨hg, ?_, ?_, ?_, ?_, ?_⟩
  · exact fun path e => hg.indexed.producer?_eq_some_iff_mem
  · exact fun path => hg.indexed.producer?_eq_none_iff
  · exact fun path i j e e' hi hj hpath hpath' => hg.indexed.position_unique hi hj hpath hpath'
  · exact fun r error g' hrun => GraphEdit.eq_of_run_change_error hrun
  · exact fun e error g' hrun => GraphEdit.eq_of_run_change_error hrun

end BuildGraph

end AssetPipeline
