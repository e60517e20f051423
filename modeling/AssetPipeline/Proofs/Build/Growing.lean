import AssetPipeline.Proofs.Build.FileList
import AssetPipeline.Proofs.Files.Reaching
import Mathlib.Algebra.Order.BigOperators.Group.List
import Mathlib.Data.List.Flatten
import Mathlib.Data.List.Sort

/-! Source directories that grow. Where each pattern resolves to what it resolved to before and perhaps to
more, edges can come and inputs can come, but none can go. So nothing that is new to a builder with
targets is made good elsewhere: the edges are the same only if all these builders see the files that they
saw. -/

namespace AssetPipeline

namespace Builder

variable {b : Builder} {root : String} {files files' : List String}

theorem edges_of_targets_eq_nil (h : b.targets = []) : b.edges root files = [] := by
  cases b with
  | single s =>
      have htarget : s.target = none := by simpa [targets] using h
      have hnone : ∀ file, s.edge? root file = none := by
        intro file
        rw [Single.edge?, Single.outputName, htarget]
        rfl
      rw [edges, List.filterMap_eq_nil_iff]
      exact fun file _ => hnone file
  | bundle b => exact if_pos (.inl h)

/-- The inputs of a builder's edges are as many as the files that it sees, if it has targets. -/
theorem length_flatMap_inputs (b : Builder) (root : String) (files : List String) :
    ((b.edges root files).flatMap (·.inputs)).length = if b.targets = [] then 0 else files.length := by
  by_cases htargets : b.targets = []
  · rw [edges_of_targets_eq_nil htargets, if_pos htargets]
    rfl
  · rw [if_neg htargets]
    cases b with
    | single s =>
        obtain ⟨target, htarget⟩ := Option.ne_none_iff_exists'.mp
          (show s.target ≠ none by simpa [targets] using htargets)
        rw [edges]
        induction files with
        | nil => rfl
        | cons file files ih =>
            rw [List.filterMap_cons, Single.edge?, Single.outputName, htarget, Option.map_some,
              Option.map_some, List.flatMap_cons, List.length_append, ih, List.length_cons]
            exact Nat.add_comm _ _
    | bundle b =>
        rw [edges]
        by_cases hfiles : files = []
        · rw [if_pos (.inr hfiles), hfiles]
          rfl
        · have hmakes : ¬ (b.targets = [] ∨ files = []) := not_or.mpr ⟨htargets, hfiles⟩
          rw [if_neg hmakes]
          simp [Bundle.edge]

theorem length_flatMap_inputs_le (h : files.length ≤ files'.length) :
    ((b.edges root files).flatMap (·.inputs)).length ≤ ((b.edges root files').flatMap (·.inputs)).length := by
  rw [length_flatMap_inputs, length_flatMap_inputs]
  split_ifs
  · exact Nat.le_refl _
  · exact h

theorem length_flatMap_inputs_lt (htargets : b.targets ≠ []) (h : files.length < files'.length) :
    ((b.edges root files).flatMap (·.inputs)).length < ((b.edges root files').flatMap (·.inputs)).length := by
  rw [length_flatMap_inputs, length_flatMap_inputs, if_neg htargets, if_neg htargets]
  exact h

/-- A builder that sees more has the outputs that it had. -/
theorem outputs_sublist (h : files.Sublist files') :
    ((b.edges root files).flatMap (·.outputs)).Sublist ((b.edges root files').flatMap (·.outputs)) := by
  cases b with
  | single s => exact (h.filterMap _).flatMap _
  | bundle b =>
      rw [edges, edges]
      by_cases hidle : b.targets = [] ∨ files = []
      · rw [if_pos hidle]
        exact List.nil_sublist _
      · obtain ⟨htargets, hfiles⟩ := not_or.mp hidle
        have hfiles' : files' ≠ [] := by
          rintro rfl
          exact hfiles (List.sublist_nil.mp h)
        rw [if_neg hidle, if_neg (not_or.mpr ⟨htargets, hfiles'⟩)]
        exact .refl _

end Builder

/-- What a pattern resolves to, nothing if it does not. -/
def Sources.found (s : Sources) (pattern : String) : List String :=
  (s.resolve pattern).toOption.getD []

theorem Sources.found_eq {s : Sources} {pattern : String} {files : List String}
    (h : s.resolve pattern = .ok files) : s.found pattern = files := by
  rw [found, h]
  rfl

namespace Declarations

variable (d : Declarations) (s : Sources)

/-- The edges of the builders over the source directory. -/
def sourceEdges : List Edge :=
  d.sourceBuilders.flatMap fun b => b.edges s.root (s.found b.pattern)

/-- What a pattern over the build directory matches. -/
def builtFiles (pattern : String) : List String :=
  ((d.sourceEdges s).flatMap (·.outputs)).filter (passes (Glob.matches · pattern))

/-- The edges of the builders over the build directory. -/
def buildEdges : List Edge :=
  d.buildBuilders.flatMap fun b => b.edges "." (d.builtFiles s b.pattern)

end Declarations

variable {d : Declarations} {s s₁ s₂ : Sources} {c c₁ c₂ : Compiled}

/-- Edges that are a function of the builder, builder after builder. -/
theorem flatten_of_forall₂ {builders : List Builder} {lists : List (List Edge)}
    {made : Builder → List Edge} (h : List.Forall₂ (fun b edges => made b = edges) builders lists) :
    lists.flatten = builders.flatMap made := by
  rw [← List.forall₂_map_left_iff, List.forall₂_eq_eq_eq] at h
  rw [← h, List.flatMap_def]

/-- The edges of a compilation are a function of what the patterns resolve to. -/
theorem compile_edges_eq (h : compile s d = .ok c) :
    (∀ b ∈ d.sourceBuilders, ∃ files, s.resolve b.pattern = .ok files) ∧
      c.graph.edges = d.sourceEdges s ++ d.buildEdges s := by
  obtain ⟨graph, hrules, -, mid, hmid, hc⟩ := compile_eq_ok_iff.mp h
  obtain ⟨-, hrules⟩ := Compiled.foldlM_addRule_eq_ok hrules
  obtain ⟨first, hfirst, hadds⟩ := Compiled.adds_foldlM (R := fun b edges =>
      (∃ files, s.resolve b.pattern = .ok files) ∧ b.edges s.root (s.found b.pattern) = edges)
    (fun b hb c c' hstep => by
      obtain ⟨files, hfiles, hadd⟩ := Compiled.addSourceBuilder_eq_ok_iff.mp hstep
      have hadds := Compiled.adds_addBuilder hadd
      refine ⟨b.edges s.root files, ⟨⟨files, hfiles⟩, by rw [Sources.found_eq hfiles]⟩, ?_⟩
      exact ⟨hadds.rules_eq, hadds.edges_eq, hadds.defaults_eq, hadds.outputs_eq, hadds.warnings_eq,
        hadds.wellFormed⟩) hmid
  have hsource : first.flatten = d.sourceEdges s := flatten_of_forall₂ (hfirst.imp fun _ _ h => h.2)
  obtain ⟨second, hsecond, hadds'⟩ := Compiled.adds_foldlM (R := fun b edges =>
      b.edges "." (mid.outputs.filter (passes (Glob.matches · b.pattern))) = edges)
    (fun b hb c c' hstep => by
      obtain ⟨files, hfiles, hadd⟩ := Compiled.addBuildBuilder_eq_ok_iff.mp hstep
      obtain ⟨-, rfl⟩ := filterM_eq_ok_iff.mp hfiles
      exact ⟨_, rfl, Compiled.adds_addBuilder hadd⟩) hc
  have hbuild : second.flatten = d.buildEdges s := by
    rw [flatten_of_forall₂ hsecond, hadds.outputs_eq, hsource]
    rfl
  refine ⟨fun b hb => ?_, ?_⟩
  · obtain ⟨edges, -, hresolve, -⟩ := exists_of_forall₂ hfirst.flip hb
    exact hresolve
  · rw [hadds'.edges_eq, hadds.edges_eq, hsource, hbuild, BuildGraph.foldlM_addRule_eq_ok hrules,
      List.nil_append]

/-- Every pattern resolves to what it resolved to, and perhaps to more. -/
structure Sources.Grows (before after : Sources) : Prop where
  root_eq : after.root = before.root
  resolve : ∀ {pattern files}, before.resolve pattern = .ok files →
    ∃ files', after.resolve pattern = .ok files' ∧ files.Sublist files'

namespace Sources.Grows

variable (hgrows : s₁.Grows s₂)
include hgrows

theorem found_sublist {pattern : String} (h : ∃ files, s₁.resolve pattern = .ok files) :
    (s₁.found pattern).Sublist (s₂.found pattern) := by
  obtain ⟨files, hfiles⟩ := h
  obtain ⟨files', hfiles', hsublist⟩ := hgrows.resolve hfiles
  rwa [found_eq hfiles, found_eq hfiles']

section Resolving

variable (hresolves : ∀ b ∈ d.sourceBuilders, ∃ files, s₁.resolve b.pattern = .ok files)
include hresolves

theorem builtFiles_sublist (pattern : String) :
    (d.builtFiles s₁ pattern).Sublist (d.builtFiles s₂ pattern) := by
  refine List.Sublist.filter _ ?_
  rw [Declarations.sourceEdges, Declarations.sourceEdges, List.flatMap_assoc, List.flatMap_assoc,
    hgrows.root_eq]
  exact List.Sublist.flatMap_right _ fun b hb => Builder.outputs_sublist (hgrows.found_sublist (hresolves b hb))

theorem length_inputs_buildEdges_le :
    ((d.buildEdges s₁).flatMap (·.inputs)).length ≤ ((d.buildEdges s₂).flatMap (·.inputs)).length := by
  rw [Declarations.buildEdges, Declarations.buildEdges, List.flatMap_assoc, List.flatMap_assoc,
    List.length_flatMap, List.length_flatMap]
  exact List.sum_le_sum fun b _ =>
    Builder.length_flatMap_inputs_le (hgrows.builtFiles_sublist hresolves b.pattern).length_le

/-- One builder with targets that sees more is enough for more inputs. -/
theorem length_inputs_sourceEdges_lt {b : Builder} (hb : b ∈ d.sourceBuilders) (htargets : b.targets ≠ [])
    (hmore : (s₁.found b.pattern).length < (s₂.found b.pattern).length) :
    ((d.sourceEdges s₁).flatMap (·.inputs)).length < ((d.sourceEdges s₂).flatMap (·.inputs)).length := by
  rw [Declarations.sourceEdges, Declarations.sourceEdges, List.flatMap_assoc, List.flatMap_assoc,
    List.length_flatMap, List.length_flatMap, hgrows.root_eq]
  refine List.sum_lt_sum _ _ (fun b hb => ?_) ⟨b, hb, Builder.length_flatMap_inputs_lt htargets hmore⟩
  exact Builder.length_flatMap_inputs_le (hgrows.found_sublist (hresolves b hb)).length_le

end Resolving

/-- A builder with targets that sees more adds to the inputs of all edges. -/
theorem resolve_eq_of_edges_eq (h₁ : compile s₁ d = .ok c₁) (h₂ : compile s₂ d = .ok c₂)
    (hedges : c₂.graph.edges = c₁.graph.edges) :
    ∀ b ∈ d.sourceBuilders, b.targets ≠ [] → s₂.resolve b.pattern = s₁.resolve b.pattern := by
  obtain ⟨hresolves, hedges₁⟩ := compile_edges_eq h₁
  obtain ⟨-, hedges₂⟩ := compile_edges_eq h₂
  intro b hb htargets
  obtain ⟨files, hfiles⟩ := hresolves b hb
  obtain ⟨files', hfiles', hsublist⟩ := hgrows.resolve hfiles
  rw [hfiles, hfiles']
  by_contra hne
  have hlt : files.length < files'.length := by
    refine Nat.lt_of_not_le fun hle => hne ?_
    rw [hsublist.eq_of_length_le hle]
  have hsource := hgrows.length_inputs_sourceEdges_lt hresolves hb htargets
    (by rwa [found_eq hfiles, found_eq hfiles'])
  have hbuild := hgrows.length_inputs_buildEdges_le hresolves
  rw [hedges₁, hedges₂] at hedges
  have hlength := congrArg (fun edges => (edges.flatMap (·.inputs)).length) hedges
  simp only [List.flatMap_append, List.length_append] at hlength
  omega

/-- The compilation is what it was if all builders with targets see the files that they saw. -/
theorem compile_of_resolve_eq (h₁ : compile s₁ d = .ok c₁)
    (h : ∀ b ∈ d.sourceBuilders, b.targets ≠ [] → s₂.resolve b.pattern = s₁.resolve b.pattern) :
    compile s₂ d = .ok c₁ := by
  rw [← h₁]
  refine compile_congr_edges hgrows.root_eq fun b hb => ?_
  obtain ⟨files, hfiles⟩ := (compile_edges_eq h₁).1 b hb
  by_cases htargets : b.targets = []
  · obtain ⟨files', hfiles', -⟩ := hgrows.resolve hfiles
    rw [hfiles, hfiles']
    have hnone : b.edges s₁.root = fun _ => [] :=
      funext fun files => Builder.edges_of_targets_eq_nil htargets
    rw [hnone]
    rfl
  · rw [h b hb htargets]

end Sources.Grows

/-! ### Sorted lists of more -/

section Sorted

variable {α : Type} {l l' : List α} {f : α → String}

theorem mergeSort_map_sublist (hnodup : l.Nodup) (hsubset : l ⊆ l') :
    ((l.map f).mergeSort (· ≤ ·)).Sublist ((l'.map f).mergeSort (· ≤ ·)) := by
  obtain ⟨kept, hkept, hsublist⟩ := List.subperm_of_subset hnodup hsubset
  refine List.sublist_of_subperm_of_pairwise ?_ (pairwise_mergeSort _) (pairwise_mergeSort _)
  rw [(List.mergeSort_perm _ _).subperm_right, (List.mergeSort_perm _ _).subperm_left]
  exact ⟨kept.map _, hkept.map _, hsublist.map _⟩

/-- Texts may repeat, but more members make a longer list. -/
theorem mergeSort_map_eq_iff (hnodup : l.Nodup) (hnodup' : l'.Nodup) (hsubset : l ⊆ l') :
    (l'.map f).mergeSort (· ≤ ·) = (l.map f).mergeSort (· ≤ ·) ↔ l' ⊆ l := by
  constructor
  · intro heq
    have hlength : l'.length = l.length := by
      have hlength := congrArg List.length heq
      rwa [List.length_mergeSort, List.length_mergeSort, List.length_map, List.length_map] at hlength
    exact ((List.subperm_of_subset hnodup hsubset).perm_of_length_le hlength.le).symm.subset
  · intro hsubset'
    have hperm : l'.Perm l :=
      (List.perm_ext_iff_of_nodup hnodup' hnodup).mpr fun _ => ⟨@hsubset' _, @hsubset _⟩
    refine eq_of_perm_of_pairwise_le (pairwise_mergeSort _) (pairwise_mergeSort _) ?_
    exact (List.mergeSort_perm _ _).trans ((hperm.map _).trans (List.mergeSort_perm _ _).symm)

end Sorted

/-! ### Trees that grow -/

/-- A pattern is to find the file that some names lead to. -/
def Glob.Finds (pattern : String) (names : List RawPath) : Prop :=
  Glob.matches (RawPath.join names).shown pattern = .ok true ∧
    (namesHidden pattern = true ∨ ∀ name ∈ names, isHidden name = false)

theorem Glob.matches_of_compile {glob : Glob} {pattern : String} (hglob : Glob.compile pattern = .ok glob)
    (path : String) : Glob.matches path pattern = .ok (glob.accepts (Path.slashed path)) := by
  rw [Glob.matches, hglob]
  rfl

namespace Workspace

variable {w before after : Workspace} {root pattern : String} {files : List String}

/-- What a pattern resolves to is made of the names that it finds. -/
theorem exists_found (hdisk : w.root.OnDisk) {glob : Glob} (hglob : Glob.compile pattern = .ok glob)
    (hdir : w.isDir root = true) : ∃ found : List (List RawPath),
      (Sources.ofWorkspace w root).resolve pattern = .ok ((found.map Path.listed).mergeSort (· ≤ ·)) ∧
      found.Nodup ∧ ∀ names, names ∈ found ↔ w.ReachesFile root names ∧ Glob.Finds pattern names := by
  obtain ⟨paths, hpaths, hnodup, hmem⟩ := exists_paths hdisk hdir (Glob.namesHidden pattern)
  have hlist : (Sources.ofWorkspace w root).list (Glob.namesHidden pattern) =
      (w.listFiles root (Glob.namesHidden pattern)).mapError (.sourceDirectory root) := rfl
  refine ⟨paths.filter fun names => glob.accepts (Path.listed names), ?_,
    hnodup.filter _, fun names => ?_⟩
  · rw [Sources.resolve, hglob, hlist, hpaths]
    refine congrArg Except.ok ?_
    rw [filter_mergeSort, List.filter_map]
    rfl
  · rw [List.mem_filter, hmem, Glob.Finds, Glob.matches_of_compile hglob, Except.ok.injEq, ← Path.listed,
      and_assoc, and_comm (b := _ = true)]

section Grows

variable (hdisk : before.root.OnDisk) (hdisk' : after.root.OnDisk) (hcwd : after.cwd = before.cwd)
  (hholds : after.root.Holds before.root)
include hdisk hdisk' hcwd hholds

/-- In a tree of which everything is still there, a pattern finds what it found. It resolves to the same
if it finds nothing at names that led to no file before. -/
theorem exists_resolve_of_holds (h : (Sources.ofWorkspace before root).resolve pattern = .ok files) :
    ∃ files', (Sources.ofWorkspace after root).resolve pattern = .ok files' ∧ files.Sublist files' ∧
      (files' = files ↔ ∀ names, after.ReachesFile root names → ¬ before.ReachesFile root names →
        ¬ Glob.Finds pattern names) := by
  obtain ⟨glob, hglob, hlisting⟩ := bind_eq_ok_iff.mp h
  obtain ⟨all, hall, -⟩ := bind_eq_ok_iff.mp hlisting
  have hdir := isDir_of_listFiles (mapError_eq_ok_iff.mp hall)
  obtain ⟨found, hfound, hnodup, hmem⟩ := exists_found hdisk hglob hdir
  obtain ⟨found', hfound', hnodup', hmem'⟩ := exists_found hdisk' hglob (isDir_mono hcwd hholds hdir)
  rw [hfound] at h
  cases h
  have hsubset : found ⊆ found' := by
    intro names hnames
    obtain ⟨hreaches, hfinds⟩ := (hmem names).mp hnames
    exact (hmem' names).mpr ⟨hreaches.mono hcwd hholds, hfinds⟩
  refine ⟨_, hfound', mergeSort_map_sublist hnodup hsubset, ?_⟩
  rw [mergeSort_map_eq_iff hnodup hnodup' hsubset]
  refine ⟨fun hsame names hreaches hnew hfinds => hnew ?_, fun hnone names hnames => ?_⟩
  · exact ((hmem names).mp (hsame ((hmem' names).mpr ⟨hreaches, hfinds⟩))).1
  · obtain ⟨hreaches, hfinds⟩ := (hmem' names).mp hnames
    by_contra hnot
    exact hnone names hreaches (fun hbefore => hnot ((hmem names).mpr ⟨hbefore, hfinds⟩)) hfinds

theorem grows_of_holds (root : String) :
    (Sources.ofWorkspace before root).Grows (Sources.ofWorkspace after root) where
  root_eq := rfl
  resolve h := by
    obtain ⟨files', hfiles', hsublist, -⟩ := exists_resolve_of_holds hdisk hdisk' hcwd hholds h
    exact ⟨files', hfiles', hsublist⟩

/-- The builders with targets see the files that they saw exactly if none of them finds a file at names
that led to none before. -/
theorem resolve_eq_iff_of_holds {d : Declarations} {c : Compiled}
    (h : compile (.ofWorkspace before root) d = .ok c) :
    (∀ b ∈ d.sourceBuilders, b.targets ≠ [] → (Sources.ofWorkspace after root).resolve b.pattern =
        (Sources.ofWorkspace before root).resolve b.pattern) ↔
      ∀ b ∈ d.sourceBuilders, b.targets ≠ [] → ∀ names, after.ReachesFile root names →
        ¬ before.ReachesFile root names → ¬ Glob.Finds b.pattern names := by
  refine forall_congr' fun b => forall_congr' fun hb => forall_congr' fun _ => ?_
  obtain ⟨files, hfiles⟩ := (compile_edges_eq h).1 b hb
  obtain ⟨files', hfiles', -, hiff⟩ := exists_resolve_of_holds hdisk hdisk' hcwd hholds hfiles
  rw [hfiles, hfiles', Except.ok.injEq, hiff]

end Grows

end Workspace

end AssetPipeline
