import AssetPipeline.Proofs.Build.Growing
import AssetPipeline.Proofs.Build.Inputs

/-! Hidden files in what a pattern resolves to. Whether hidden entries are listed at all is read off the
pattern with its backslashes taken for slashes, while for the match a backslash is an escape. So an escaped
dot that no segment begins with lets hidden entries in as well. A path is matched with no such question. -/

namespace AssetPipeline

namespace Glob

variable {pattern : String}

/-- A segment of a pattern begins with a dot, which may be escaped. -/
def BeginsWithDot (segment : String) : Prop :=
  ['.'] <+: segment.toList ∨ ['\\', '.'] <+: segment.toList

instance (segment : String) : Decidable (BeginsWithDot segment) :=
  inferInstanceAs (Decidable (_ ∨ _))

/-- Some segment of a pattern is the name of a hidden entry, or the beginning of such names. -/
def SpellsHidden (pattern : String) : Prop :=
  ∃ segment ∈ Path.segments pattern, Path.isHidden segment = true ∧ segment ≠ "." ∧ segment ≠ ".."

theorem namesHidden_iff : namesHidden pattern = true ↔
    ∃ segment ∈ Path.segments (Path.slashed pattern),
      Path.isHidden segment = true ∧ segment ≠ "." ∧ segment ≠ ".." := by
  simp [namesHidden, and_assoc]

/-- Without an escaped dot, a pattern in which no segment begins with a dot asks for no hidden entries. -/
theorem namesHidden_eq_false (hdots : ∀ segment ∈ Path.segments pattern, ¬ BeginsWithDot segment)
    (hescape : ¬ ['\\', '.'] <:+: pattern.toList) : namesHidden pattern = false := by
  rw [← Bool.not_eq_true, namesHidden_iff]
  rintro ⟨segment, hsegment, hhidden, -⟩
  obtain ⟨segment, hsegment, hhidden | hwithin⟩ := Path.exists_isHidden_slashed_iff.mp ⟨segment, hsegment, hhidden⟩
  · refine hdots segment hsegment (.inl ?_)
    rw [Path.isHidden, decide_eq_true_eq] at hhidden
    obtain ⟨rest, hrest⟩ := List.head?_eq_some_iff.mp hhidden
    exact hrest ▸ List.prefix_append ['.'] rest
  · exact hescape (hwithin.trans (Path.infix_of_mem_segments hsegment))

/-- The dot of an extension does not ask for hidden entries. -/
example : namesHidden "**/*.psd" = false := by
  decide +kernel

/-- Where no backslash is next to a dot, cutting at backslashes makes and spoils no hidden piece. -/
theorem exists_hidden_piece_iff {text : List Char} (hescape : ¬ ['\\', '.'] <:+: text)
    (hescape' : ¬ ['.', '\\'] <:+: text) :
    (∃ piece ∈ text.splitOn '\\', piece.head? = some '.' ∧ piece ≠ ['.'] ∧ piece ≠ ['.', '.']) ↔
      text.head? = some '.' ∧ text ≠ ['.'] ∧ text ≠ ['.', '.'] := by
  by_cases hmem : '\\' ∈ text
  · obtain ⟨front, rest, rfl, hfront⟩ := List.eq_append_cons_of_mem hmem
    -- A later piece stands behind a backslash, and the first one has a backslash behind it.
    have hrest : ∀ piece ∈ rest.splitOn '\\', piece.head? ≠ some '.' := by
      intro piece hpiece hhead
      refine hescape ((infix_append_cons_iff hfront).mpr ?_)
      exact (exists_head?_iff (by decide) rest).mp ⟨piece, hpiece, hhead⟩
    have hone : front ≠ ['.'] := by
      rintro rfl
      exact hescape' ⟨[], rest, rfl⟩
    have htwo : front ≠ ['.', '.'] := by
      rintro rfl
      exact hescape' ⟨['.'], rest, rfl⟩
    have hhead : (front ++ '\\' :: rest).head? = some '.' ↔ front.head? = some '.' := by
      cases front with
      | nil => simp
      | cons c front => rfl
    have hwhole : ∀ dots : List Char, '\\' ∉ dots → front ++ '\\' :: rest ≠ dots := by
      rintro dots hdots rfl
      exact hdots hmem
    rw [List.splitOn_append_cons_self, List.splitOn_eq_singleton hfront, hhead]
    constructor
    · rintro ⟨piece, hpiece, hhidden, -⟩
      rcases List.mem_cons.mp hpiece with rfl | hpiece
      · exact ⟨hhidden, hwhole _ (by decide), hwhole _ (by decide)⟩
      · exact absurd hhidden (hrest piece hpiece)
    · rintro ⟨hhidden, -⟩
      exact ⟨front, List.mem_cons_self, hhidden, hone, htwo⟩
  · rw [List.splitOn_eq_singleton hmem]
    simp

theorem isHidden_and_ne_iff (segment : String) :
    (Path.isHidden segment = true ∧ segment ≠ "." ∧ segment ≠ "..") ↔
      segment.toList.head? = some '.' ∧ segment.toList ≠ ['.'] ∧ segment.toList ≠ ['.', '.'] := by
  have hone : segment = "." ↔ segment.toList = ['.'] := String.toList_inj.symm
  have htwo : segment = ".." ↔ segment.toList = ['.', '.'] := String.toList_inj.symm
  rw [Path.isHidden, decide_eq_true_eq, Ne, Ne, hone, htwo]

/-- Where no backslash is next to a dot, the two readings of a pattern agree on what it spells out. -/
theorem namesHidden_iff_spellsHidden (hescape : ¬ ['\\', '.'] <:+: pattern.toList)
    (hescape' : ¬ ['.', '\\'] <:+: pattern.toList) : namesHidden pattern = true ↔ SpellsHidden pattern := by
  rw [namesHidden_iff, SpellsHidden, Path.segments_slashed]
  simp only [isHidden_and_ne_iff, List.mem_flatMap, List.mem_map]
  have hpieces : ∀ segment ∈ Path.segments pattern, _ := fun segment hsegment =>
    have hwithin := Path.infix_of_mem_segments hsegment
    exists_hidden_piece_iff (fun h => hescape (h.trans hwithin)) fun h => hescape' (h.trans hwithin)
  constructor
  · rintro ⟨_, ⟨segment, hsegment, piece, hpiece, rfl⟩, hhidden⟩
    rw [String.toList_ofList] at hhidden
    exact ⟨segment, hsegment, (hpieces segment hsegment).mp ⟨piece, hpiece, hhidden⟩⟩
  · rintro ⟨segment, hsegment, hhidden⟩
    obtain ⟨piece, hpiece, hhidden⟩ := (hpieces segment hsegment).mpr hhidden
    refine ⟨_, ⟨segment, hsegment, piece, hpiece, rfl⟩, ?_⟩
    rwa [String.toList_ofList]

end Glob

/-! ### What a pattern resolves to -/

namespace Workspace

variable {w : Workspace} {root pattern : String}

/-- A listed path shows no hidden segment if no name on the way to the file shows as hidden, and none has a
dot behind a backslash. -/
theorem ReachesFile.segments_visible_iff (hdisk : w.root.OnDisk) {names : List RawPath}
    (h : w.ReachesFile root names) :
    (∀ segment ∈ Path.segments (Path.listed names), Path.isHidden segment = false) ↔
      ∀ name ∈ names, Path.isHidden name.shown = false ∧ ¬ ['\\', '.'] <:+: name.shown.toList := by
  have hhidden := @Path.exists_isHidden_slashed_iff (RawPath.join names).shown
  rw [h.segments_eq hdisk, ← not_iff_not] at hhidden
  simpa [Path.listed] using hhidden

/-- The files of a listing, hidden ones included, and the visible ones among them. -/
theorem exists_listings (hdir : w.isDir root = true) : ∃ all visible : List String,
    (Sources.ofWorkspace w root).list true = .ok all ∧
      (Sources.ofWorkspace w root).list false = .ok visible ∧ visible ⊆ all ∧
      ∀ file ∈ all, Path.slashed file = file := by
  obtain ⟨found, hlocate, hpart⟩ := isDir_iff.mp hdir
  obtain ⟨entries, hat⟩ := Node.part?_eq_dir_iff.mp hpart
  have hlist := listFiles_eq_ok hlocate hat
  refine ⟨_, _, mapError_eq_ok_iff.mpr (hlist true), mapError_eq_ok_iff.mpr (hlist false), ?_, ?_⟩
  · intro file hfile
    obtain ⟨names, hnames, rfl⟩ := mem_mergeSort_map_iff.mp hfile
    rw [Node.files_false_eq_filter] at hnames
    exact mem_mergeSort_map_iff.mpr ⟨names, List.mem_of_mem_filter hnames, rfl⟩
  · intro file hfile
    obtain ⟨names, -, rfl⟩ := mem_mergeSort_map_iff.mp hfile
    exact Path.slashed_eq_self (Path.backslash_notMem_slashed _)

end Workspace

/-- What a pattern without a dot in front of a segment resolves to has no hidden segment exactly if no
name that it finds shows as hidden, or has a dot behind a backslash. No hidden name is found if no dot in
the pattern is escaped; but a name that is no text may show as hidden without being so. -/
theorem exists_resolve_visible_iff {w : Workspace} {root pattern : String} (hdisk : w.root.OnDisk)
    (hdir : w.isDir root = true) {glob : Glob} (hglob : Glob.compile pattern = .ok glob)
    (hdots : ∀ segment ∈ Path.segments pattern, ¬ Glob.BeginsWithDot segment) :
    ∃ found, (Sources.ofWorkspace w root).resolve pattern = .ok found ∧
      ((∀ file ∈ found, ∀ segment ∈ Path.segments file, Path.isHidden segment = false) ↔
        ∀ names, w.ReachesFile root names → Glob.Finds pattern names →
          ∀ name ∈ names, Path.isHidden name.shown = false ∧ ¬ ['\\', '.'] <:+: name.shown.toList) ∧
      (¬ ['\\', '.'] <:+: pattern.toList → ∀ names, Glob.Finds pattern names →
        ∀ name ∈ names, isHidden name = false) := by
  obtain ⟨found, hresolve, -, hmem⟩ := Workspace.exists_found hdisk hglob hdir
  refine ⟨_, hresolve, ?_, fun hescape names hfinds => ?_⟩
  · constructor
    · intro hvisible names hreaches hfinds
      refine (hreaches.segments_visible_iff hdisk).mp (hvisible _ ?_)
      exact mem_mergeSort_map_iff.mpr ⟨names, (hmem names).mpr ⟨hreaches, hfinds⟩, rfl⟩
    · intro hvisible file hfile
      obtain ⟨names, hnames, rfl⟩ := mem_mergeSort_map_iff.mp hfile
      obtain ⟨hreaches, hfinds⟩ := (hmem names).mp hnames
      exact (hreaches.segments_visible_iff hdisk).mpr (hvisible names hreaches hfinds)
  · rcases hfinds.2 with hnames | hvisible
    · rw [Glob.namesHidden_eq_false hdots hescape] at hnames
      cases hnames
    · exact hvisible

theorem exists_resolve_visible_iff_bare : ∃ found,
    (Sources.ofWorkspace (sourceWorkspace bareEntries) "src").resolve "**/*.psd" = .ok found ∧
      ∀ file ∈ found, ∀ segment ∈ Path.segments file, Path.isHidden segment = false := by
  obtain ⟨glob, hglob, -⟩ := bind_eq_ok_iff.mp resolve_bareEntries
  obtain ⟨found, hfound, hvisible, hnames⟩ := exists_resolve_visible_iff onDisk_bareEntries
    (isDir_sourceWorkspace bareEntries) hglob (by decide)
  refine ⟨found, hfound, hvisible.mpr fun names hreaches hfinds name hname => ?_⟩
  have hkept := keepsNames_bareEntries names hreaches name hname
  rw [hkept.isHidden_shown]
  refine ⟨hnames (by decide) names hfinds name hname, fun hwithin => ?_⟩
  exact hkept.backslash_notMem (hwithin.subset List.mem_cons_self)

/-- A file that is nothing but an extension, and one with a name before it. -/
def extensionEntries : List (RawPath × Node) :=
  [(".png", .file .empty), ("a.png", .file .empty)]

theorem listFiles_extensionEntries :
    (sourceWorkspace extensionEntries).listFiles "src" true = .ok [".png", "a.png"] := by
  have hpaths : (sourceWorkspace extensionEntries).root.files true 40 ["src"] [["src"]] 4 extensionEntries =
      ([[".png"], ["a.png"]] : List (List RawPath)) := by
    simp [extensionEntries, Node.files_cons, Node.files_nil, Node.visit, Node.Visit.paths]
  exact listFiles_sourceWorkspace hpaths (by decide +kernel) (by decide +kernel)

/-- An escaped dot anywhere lets hidden files in, although no segment begins with a dot. -/
theorem resolve_escaped_dot : (∀ segment ∈ Path.segments "*\\.png", ¬ Glob.BeginsWithDot segment) ∧
    (Sources.ofWorkspace (sourceWorkspace extensionEntries) "src").resolve "*\\.png" =
      .ok [".png", "a.png"] := by
  have hasks : Glob.namesHidden "*\\.png" = true := by decide +kernel
  refine ⟨by decide, ?_⟩
  rw [Sources.resolve_of_listFiles (hasks ▸ listFiles_extensionEntries)]
  decide +kernel

/-- What is said of one file by the files that a pattern resolves to and by a match: nothing resolves that
does not match, and what matches resolves if it is visible. A hidden file resolves only if the pattern
spells out a hidden segment, as far as no backslash next to a dot leaves in doubt what it spells. -/
structure Glob.Agrees (pattern : String) (visible : List String) (file : String)
    (resolved matched : Prop) : Prop where
  matches_of_resolves : resolved → matched
  iff_of_visible : file ∈ visible → (resolved ↔ matched)
  iff_of_plain : ¬ ['\\', '.'] <:+: pattern.toList → ¬ ['.', '\\'] <:+: pattern.toList →
    (resolved ↔ matched ∧ (file ∈ visible ∨ SpellsHidden pattern))

theorem Glob.agrees_of_iff {pattern file : String} {visible : List String} {resolved matched : Prop}
    (h : resolved ↔ matched ∧ (file ∈ visible ∨ namesHidden pattern = true)) :
    Agrees pattern visible file resolved matched where
  matches_of_resolves hresolved := (h.mp hresolved).1
  iff_of_visible hfile := by rw [h, and_iff_left (.inl hfile)]
  iff_of_plain hescape hescape' := by rw [h, namesHidden_iff_spellsHidden hescape hescape']

/-- A pattern resolves to the files that match it, but to hidden ones only if it spells out a hidden
segment. A builder over the build directory takes all outputs that match, as if hidden ones were asked
for. -/
theorem selections_agree {w : Workspace} {root pattern : String} (hdir : w.isDir root = true) {glob : Glob}
    (hglob : Glob.compile pattern = .ok glob) : ∃ found all visible : List String,
      (Sources.ofWorkspace w root).resolve pattern = .ok found ∧
      (Sources.ofWorkspace w root).list true = .ok all ∧
      (Sources.ofWorkspace w root).list false = .ok visible ∧
      (∀ file ∈ all,
        Glob.Agrees pattern visible file (file ∈ found) (Glob.matches file pattern = .ok true)) ∧
      ∀ available, ∃ picked, Glob.Selects pattern available picked ∧
        (∀ c b, b.pattern = pattern →
          Compiled.addBuildBuilder available c b = Compiled.addBuilder "." picked c b) ∧
        ∀ output ∈ available, Path.slashed output ∈ all →
          Glob.Agrees pattern visible (Path.slashed output) (Path.slashed output ∈ found)
            (output ∈ picked) := by
  obtain ⟨all, visible, hall, hvisible, hsubset, hslashed⟩ := Workspace.exists_listings hdir
  have hmatches := Glob.matches_of_compile hglob
  obtain ⟨found, hfound, hmem⟩ : ∃ found, (Sources.ofWorkspace w root).resolve pattern = .ok found ∧
      ∀ file ∈ all, (file ∈ found ↔
        glob.accepts file = true ∧ (file ∈ visible ∨ Glob.namesHidden pattern = true)) := by
    rw [Sources.resolve]
    cases hasks : Glob.namesHidden pattern with
    | true =>
        refine ⟨all.filter glob.accepts, bind_eq_ok_iff.mpr ⟨glob, hglob, ?_⟩, fun file hfile => ?_⟩
        · exact bind_eq_ok_iff.mpr ⟨all, hall, rfl⟩
        · simp [hfile]
    | false =>
        refine ⟨visible.filter glob.accepts, bind_eq_ok_iff.mpr ⟨glob, hglob, ?_⟩, fun file _ => ?_⟩
        · exact bind_eq_ok_iff.mpr ⟨visible, hvisible, rfl⟩
        · simp [and_comm]
  refine ⟨found, all, visible, hfound, hall, hvisible, fun file hfile => ?_, fun available => ?_⟩
  · refine Glob.agrees_of_iff ?_
    rw [hmem file hfile, hmatches, hslashed file hfile, Except.ok.injEq]
  · refine ⟨available.filter fun output => glob.accepts (Path.slashed output),
      ⟨_, fun output _ => hmatches output, rfl⟩, fun c b hb => ?_, fun output houtput hfile => ?_⟩
    · have hselects : available.filterM (fun output => Glob.matches output b.pattern) =
          .ok (available.filter fun output => glob.accepts (Path.slashed output)) :=
        Glob.selects_iff.mp ⟨_, fun output _ => by rw [hb]; exact hmatches output, rfl⟩
      rw [Compiled.addBuildBuilder, hselects]
      rfl
    · refine Glob.agrees_of_iff ?_
      rw [hmem _ hfile, List.mem_filter, and_iff_right houtput]

theorem selections_agree_bare :
    (Sources.ofWorkspace (sourceWorkspace bareEntries) "src").resolve "**/*.psd" = .ok ["art/hero.psd"] ∧
      Glob.matches "art/hero.psd" "**/*.psd" = .ok true := by
  have hlist : (Sources.ofWorkspace (sourceWorkspace bareEntries) "src").list true =
      .ok ["art/hero.psd"] := mapError_eq_ok_iff.mpr (listFiles_bareEntries true)
  obtain ⟨glob, hglob, -⟩ := bind_eq_ok_iff.mp resolve_bareEntries
  obtain ⟨found, all, visible, hfound, hall, -, hagrees, -⟩ :=
    selections_agree (isDir_sourceWorkspace bareEntries) hglob
  cases resolve_bareEntries.symm.trans hfound
  cases hlist.symm.trans hall
  exact ⟨hfound, (hagrees _ List.mem_cons_self).matches_of_resolves List.mem_cons_self⟩

/-- A hidden file that matches need not be resolved to. -/
theorem matches_not_resolved :
    (Sources.ofWorkspace (sourceWorkspace extensionEntries) "src").list true = .ok [".png", "a.png"] ∧
      (Sources.ofWorkspace (sourceWorkspace extensionEntries) "src").resolve "*.png" = .ok ["a.png"] ∧
      Glob.matches ".png" "*.png" = .ok true := by
  have hasks : Glob.namesHidden "*.png" = false := by decide +kernel
  have hvisible : (sourceWorkspace extensionEntries).listFiles "src" false = .ok ["a.png"] := by
    have hnames : Path.isHidden ".png" = true ∧ Path.isHidden "a.png" = false := by decide
    have hpaths : (sourceWorkspace extensionEntries).root.files false 40 ["src"] [["src"]] 4
        extensionEntries = ([["a.png"]] : List (List RawPath)) := by
      simp [extensionEntries, Node.files_cons, Node.files_nil, Node.visit, Node.Visit.paths, hnames]
    exact listFiles_sourceWorkspace hpaths (by decide +kernel) (by decide +kernel)
  refine ⟨mapError_eq_ok_iff.mpr listFiles_extensionEntries, ?_, by decide +kernel⟩
  rw [Sources.resolve_of_listFiles (hasks ▸ hvisible)]
  decide +kernel

end AssetPipeline
