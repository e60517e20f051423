import AssetPipeline.Proofs.Build.Growing
import AssetPipeline.Proofs.Files.Appearing
import AssetPipeline.Proofs.Files.Making

/-! Refreshing again. A file list may be one of the files that it lists, and the directories that are made
for it may open the way to others. So a second refresh may find more than the first one has written. It
finds the list where it is to be and only puts another text in it; that changes no path, and a third
refresh finds what the second has written. -/

namespace AssetPipeline

namespace FileList

variable {s₁ s₂ : Sources} {w w' w'' made before after : Workspace} {root output pattern : String}
  {patterns files : List String} {names : List RawPath} {written : Bool} {place : Location} {content : ByteArray}

/-! ### What is collected -/

theorem collect_congr (h : ∀ pattern ∈ patterns, s₂.resolve pattern = s₁.resolve pattern) :
    collect s₂ patterns = collect s₁ patterns := by
  have hmap : patterns.mapM s₂.resolve = patterns.mapM s₁.resolve := by
    induction patterns with
    | nil => rfl
    | cons pattern patterns ih =>
        rw [List.forall_mem_cons] at h
        rw [List.mapM_cons, List.mapM_cons, h.1, ih h.2]
  rw [collect, collect, hmap]

section Holds

variable (hdisk : before.root.OnDisk) (hdisk' : after.root.OnDisk) (hcwd : after.cwd = before.cwd)
  (hholds : after.root.Holds before.root)
include hdisk hdisk' hcwd hholds

/-- In a tree of which everything is still there all is found that was found, and more only where names
lead to a file that led to none before. -/
theorem collect_of_holds (h : collect (.ofWorkspace before root) patterns = .ok files) :
    ∃ files', collect (.ofWorkspace after root) patterns = .ok files' ∧ (files' = files ∨
      ∃ pattern ∈ patterns, ∃ names, Glob.Finds pattern names ∧ after.ReachesFile root names ∧
        ¬ before.ReachesFile root names) := by
  by_cases hnew : ∃ pattern ∈ patterns, ∃ names, Glob.Finds pattern names ∧
      after.ReachesFile root names ∧ ¬ before.ReachesFile root names
  · obtain ⟨found, hfound, -⟩ := bind_eq_ok_iff.mp h
    have hgrows := Workspace.grows_of_holds hdisk hdisk' hcwd hholds root
    obtain ⟨found', hfound', -⟩ := exists_forall₂ (S := List.Sublist) (mapM_eq_ok_iff.mp hfound)
      fun _ _ _ hfiles => hgrows.resolve hfiles
    exact ⟨_, bind_eq_ok_iff.mpr ⟨found', mapM_eq_ok_iff.mpr hfound', rfl⟩, .inr hnew⟩
  · refine ⟨files, ?_, .inl rfl⟩
    rw [← h]
    refine collect_congr fun pattern hpattern => ?_
    obtain ⟨-, found, hfound, -⟩ := collect_eq_ok h
    obtain ⟨own, -, hown⟩ := exists_of_forall₂ hfound.flip hpattern
    obtain ⟨own', hown', -, hsame⟩ := Workspace.exists_resolve_of_holds hdisk hdisk' hcwd hholds hown
    rw [hown', hown, hsame.mpr fun names hreaches hbefore hfinds =>
      hnew ⟨pattern, hpattern, names, hfinds, hreaches, hbefore⟩]

theorem collect_of_holds_symm (hback : before.root.Holds after.root)
    (h : collect (.ofWorkspace before root) patterns = .ok files) :
    collect (.ofWorkspace after root) patterns = .ok files := by
  obtain ⟨files', hfiles', rfl | ⟨-, -, names, -, hreaches, hnew⟩⟩ :=
    collect_of_holds hdisk hdisk' hcwd hholds h
  · exact hfiles'
  · exact absurd (hreaches.mono hcwd.symm hback) hnew

end Holds

/-! ### One refresh after the other -/

theorem refresh_eq_ok_iff : refresh w root patterns output = (.ok written, w') ↔
    ∃ files, collect (.ofWorkspace w root) patterns = .ok files ∧
      w.writeIfChanged output ("\n".intercalate files) = (.ok written, w') := by
  rw [refresh]
  cases collect (.ofWorkspace w root) patterns with
  | error fault =>
      constructor
      · intro h
        cases h
      · rintro ⟨files, h, -⟩
        cases h
  | ok files =>
      constructor
      · exact fun h => ⟨files, rfl, h⟩
      · rintro ⟨files', h, hwrite⟩
        cases h
        exact hwrite

/-- A refresh that fails may leave directories behind, and nothing else. -/
theorem gainsDirectories_of_refresh {failure : Failure}
    (h : refresh w root patterns output = (.error failure, w')) : w.GainsDirectories w' := by
  rw [refresh] at h
  split at h
  · cases h
    exact .refl w
  · exact (Workspace.gainsDirectories_writeIfChanged h).1

theorem onDisk_refresh (hdisk : w.root.OnDisk) (root : String) (patterns : List String) (output : String) :
    (refresh w root patterns output).2.root.OnDisk := by
  rw [refresh]
  split
  · exact hdisk
  · exact Workspace.onDisk_writeIfChanged hdisk _ _

/-- The list holds what there is to collect. -/
def Settled (w : Workspace) (root : String) (patterns : List String) (output : String) : Prop :=
  ∃ files, collect (.ofWorkspace w root) patterns = .ok files ∧
    w.readText output = .ok ("\n".intercalate files)

/-- Where the list holds what there is to collect, a refresh changes nothing. -/
theorem Settled.refresh_eq (h : Settled w root patterns output) :
    refresh w root patterns output = (.ok false, w) := by
  obtain ⟨files, hfiles, hread⟩ := h
  exact refresh_eq_ok_iff.mpr ⟨files, hfiles, Workspace.writeIfChanged_eq_ok_iff.mpr (.inl ⟨rfl, rfl, hread⟩)⟩

/-- The second refresh succeeds as the first did, and leaves a list that holds what there is to collect. -/
theorem refresh_again (hdisk : w.root.OnDisk) (h : refresh w root patterns output = (.ok written, w')) :
    ∃ files' written' w'', collect (.ofWorkspace w' root) patterns = .ok files' ∧
      refresh w' root patterns output = (.ok written', w'') ∧
      w''.readText output = .ok ("\n".intercalate files') ∧ Settled w'' root patterns output := by
  obtain ⟨files, hfiles, hwrite⟩ := refresh_eq_ok_iff.mp h
  rcases Workspace.writeIfChanged_eq_ok_iff.mp hwrite with
    ⟨rfl, rfl, hread⟩ | ⟨rfl, -, made, hparent, hbytes⟩
  · have hsettled : Settled w' root patterns output := ⟨files, hfiles, hread⟩
    exact ⟨files, false, w', hfiles, hsettled.refresh_eq, hread, hsettled⟩
  · obtain ⟨place, hwrites, hdiskWritten, -, -⟩ := Workspace.writes_of_writeBytes hbytes
    have hgains := Workspace.gainsDirectories_makeParent w output
    have hdiskMade := Workspace.onDisk_makeParent hdisk output
    rw [hparent] at hgains hdiskMade
    have hdisk' := hdiskWritten hdiskMade
    obtain ⟨files', hfiles', -⟩ := collect_of_holds hdisk hdisk' (hwrites.cwd_eq.trans hgains.cwd_eq)
      (hwrites.holds.trans hgains.holds) hfiles
    -- The second refresh writes over the list that the first has made.
    obtain ⟨written', w'', hwrite', hread', hcwd, hholds, hback, hdisk''⟩ :=
      (Workspace.rewritable_of_writeBytes hparent hbytes).writeIfChanged ("\n".intercalate files')
    have hfiles'' := collect_of_holds_symm hdisk' (hdisk'' hdisk') hcwd hholds hback hfiles'
    exact ⟨files', written', w'', hfiles', refresh_eq_ok_iff.mpr ⟨files', hfiles', hwrite'⟩, hread',
      files', hfiles'', hread'⟩

/-- The tree after so many refreshes in a row. -/
def refreshTimes (w : Workspace) (root : String) (patterns : List String) (output : String) :
    Nat → Workspace
  | 0 => w
  | n + 1 => (refresh (refreshTimes w root patterns output n) root patterns output).2

theorem Settled.refreshTimes_eq {first : Nat}
    (h : Settled (refreshTimes w root patterns output first) root patterns output) {n : Nat} (hle : first ≤ n) :
    refreshTimes w root patterns output n = refreshTimes w root patterns output first := by
  induction n, hle using Nat.le_induction with
  | base => rfl
  | succ n hle ih => rw [refreshTimes, ih, h.refresh_eq]

/-! ### What the second refresh may find -/

/-- By what a refresh has made, names lead to a file that led to none before: to the list, which is new, or
to a file that was there and that a new directory opened the way to. -/
structure Appears (before after : Workspace) (root output : String) (names : List RawPath) (place : Location) :
    Prop where
  reaches : after.ReachesFile root names
  new : ¬ before.ReachesFile root names
  leads : after.LeadsTo root names place
  source : (after.placeOf output = some place ∧ before.root.part? place = none) ∨
    (∃ content, before.root.part? place = some (.file content)) ∧
      ∃ dir, before.root.part? dir = none ∧ after.root.part? dir = some .dir

theorem exists_appears {listPlace : Location} (hgains : w.GainsDirectories made)
    (hwrites : made.Writes w' listPlace content) (hplace : w'.placeOf output = some listPlace)
    (hdisk' : w'.root.OnDisk) (hreaches : w'.ReachesFile root names) (hnew : ¬ w.ReachesFile root names) :
    ∃ place, Appears w w' root output names place := by
  obtain ⟨found, hlocate⟩ : ∃ found, w'.locate root = .ok found := by
    obtain ⟨name, rest, hnames⟩ := List.exists_cons_of_ne_nil hreaches.ne_nil
    obtain ⟨found, hlocate, -⟩ := hreaches.exists_dir_at (show names = [] ++ name :: rest from hnames)
    exact ⟨found, hlocate⟩
  obtain ⟨place, left, bytes, hleads, hpart⟩ := hreaches.leads hdisk' hlocate
  have hleadsTo : w'.LeadsTo root names place := ⟨found, left, hlocate, hleads⟩
  refine ⟨place, hreaches, hnew, hleadsTo, ?_⟩
  by_cases hlist : place = listPlace ∧ w.root.part? place = none
  · exact .inl ⟨hlist.1 ▸ hplace, hlist.2⟩
  have hfile : ∃ old, made.root.part? place = some (.file old) := by
    by_cases heq : place = listPlace
    · subst heq
      refine hwrites.writable.resolve_left fun hnone => hlist ⟨rfl, ?_⟩
      rcases hgains.part? place with hsame | ⟨hbefore, -⟩
      · exact hsame.symm.trans hnone
      · exact hbefore
    · rw [hwrites.part?_eq, Function.update_of_ne heq] at hpart
      exact ⟨bytes, hpart⟩
  have hfileBefore : ∃ old, w.root.part? place = some (.file old) := by
    obtain ⟨old, hold⟩ := hfile
    exact ⟨old, Node.part?_eq_file_iff.mpr (hgains.at?_eq_file_iff.mp (Node.part?_eq_file_iff.mp hold))⟩
  refine .inr ⟨hfileBefore, ?_⟩
  -- Without a new directory the names would have led to the file before.
  by_contra hdirs
  have hsame : made.root.part? = w.root.part? := by
    funext other
    exact (hgains.part? other).resolve_right fun hnew =>
      hdirs ⟨other, hnew.1, hwrites.holds.dir hnew.2⟩
  have hmade : made.ReachesFile root names := by
    by_cases heq : place = listPlace
    · exact hreaches.mono hwrites.cwd_eq.symm (hwrites.holds_symm (heq ▸ hfile))
    · exact hreaches.of_writes hwrites hdisk' hleadsTo heq
  exact hnew (hmade.mono hgains.cwd_eq.symm (.of_part?_eq hsame.symm))

/-- A second refresh writes only if it finds something by what the first has made. -/
theorem exists_appears_of_written (hdisk : w.root.OnDisk)
    (h : refresh w root patterns output = (.ok written, w'))
    (hagain : (refresh w' root patterns output).1 = .ok true) :
    ∃ pattern ∈ patterns, ∃ names place, Glob.Finds pattern names ∧
      Appears w w' root output names place := by
  obtain ⟨files, hfiles, hwrite⟩ := refresh_eq_ok_iff.mp h
  have hread := Workspace.readText_of_writeIfChanged hwrite
  have hunsettled : ¬ Settled w' root patterns output := by
    intro hsettled
    rw [hsettled.refresh_eq] at hagain
    cases hagain
  rcases Workspace.writeIfChanged_eq_ok_iff.mp hwrite with ⟨-, rfl, -⟩ | ⟨-, -, made, hparent, hbytes⟩
  · exact absurd ⟨files, hfiles, hread⟩ hunsettled
  · obtain ⟨place, hwrites, hdiskWritten, hplace, -⟩ := Workspace.writes_of_writeBytes hbytes
    have hgains := Workspace.gainsDirectories_makeParent w output
    have hdiskMade := Workspace.onDisk_makeParent hdisk output
    rw [hparent] at hgains hdiskMade
    have hdisk' := hdiskWritten hdiskMade
    obtain ⟨files', hfiles', rfl | ⟨pattern, hpattern, names, hfinds, hreaches, hnew⟩⟩ :=
      collect_of_holds hdisk hdisk' (hwrites.cwd_eq.trans hgains.cwd_eq)
        (hwrites.holds.trans hgains.holds) hfiles
    · exact absurd ⟨files', hfiles', hread⟩ hunsettled
    · obtain ⟨place', happears⟩ := exists_appears hgains hwrites hplace hdisk' hreaches hnew
      exact ⟨pattern, hpattern, names, place', hfinds, happears⟩

/-- A refresh that succeeds can be repeated. Every repetition succeeds and leaves in the list what was to
be collected before it. The second refresh writes only if it finds the list itself, which the first has
made, or a file that a directory opened the way to which the first has made for the list. After the
second none writes, and none changes anything. -/
theorem refresh_settles (hdisk : w.root.OnDisk)
    (hfirst : refresh w root patterns output = (.ok written, w')) :
    (∀ n, ∃ written files,
      refresh (refreshTimes w root patterns output n) root patterns output =
        (.ok written, refreshTimes w root patterns output (n + 1)) ∧
      collect (.ofWorkspace (refreshTimes w root patterns output n) root) patterns = .ok files ∧
      (refreshTimes w root patterns output (n + 1)).readText output = .ok ("\n".intercalate files) ∧
      (2 ≤ n → written = false ∧
        refreshTimes w root patterns output (n + 1) = refreshTimes w root patterns output n)) ∧
    ((refresh w' root patterns output).1 = .ok true → ∃ pattern ∈ patterns, ∃ names place,
      Glob.Finds pattern names ∧ Appears w w' root output names place) := by
  refine ⟨fun n => ?_, exists_appears_of_written hdisk hfirst⟩
  obtain ⟨files, hfiles, hwrite⟩ := refresh_eq_ok_iff.mp hfirst
  have hread := Workspace.readText_of_writeIfChanged hwrite
  obtain ⟨files', written', w'', hfiles', hsecond, hread', hsettled⟩ := refresh_again hdisk hfirst
  have hone : refreshTimes w root patterns output 1 = w' := by
    rw [refreshTimes, refreshTimes, hfirst]
  have htwo : refreshTimes w root patterns output 2 = w'' := by
    rw [refreshTimes, hone, hsecond]
  rw [← htwo] at hsettled
  obtain rfl | rfl | hn : n = 0 ∨ n = 1 ∨ 2 ≤ n := by omega
  · exact ⟨written, files, hone ▸ hfirst, hfiles, hone ▸ hread, fun h => absurd h (by decide)⟩
  · rw [htwo, hone]
    exact ⟨written', files', hsecond, hfiles', hread', fun h => absurd h (by decide)⟩
  · rw [hsettled.refreshTimes_eq (Nat.le_succ_of_le hn), hsettled.refreshTimes_eq hn]
    obtain ⟨files'', hfiles'', hread''⟩ := id hsettled
    exact ⟨false, files'', hsettled.refresh_eq, hfiles'', hread'', fun _ => ⟨rfl, rfl⟩⟩

end FileList

/-! ### A link through a directory that is made for the list -/

/-- A directory with a link whose path leads through another directory, which may be missing, to a file. -/
def linkedWorkspace (entries : List (RawPath × Node)) : Workspace :=
  ⟨.dir (("x", .file .empty) :: ("s", .dir [("l.psd", .link "../out/../x")]) :: entries), []⟩

/-- The list in its directory. -/
def emptyList : List (RawPath × Node) :=
  [("out", .dir [("list", .file "".toUTF8)])]

section Linked

variable {entries : List (RawPath × Node)}

theorem onDisk_linked (hentries : entries = [] ∨ entries = emptyList) :
    (linkedWorkspace entries).root.OnDisk := by
  have hnames : ∀ name ∈ [("x" : RawPath), "s", "l.psd", "out", "list"], IsEntryName name := by decide
  rcases hentries with rfl | rfl <;> simp_all [linkedWorkspace, emptyList, Node.OnDisk]

theorem locate_linked : (linkedWorkspace entries).locate "s" = .ok ⟨["s"], 40, Nat.le_refl 40⟩ := by
  have hname : IsEntryName "s" := by decide
  rw [Workspace.locate, Route.parse_name hname]
  exact Node.follow_eq_ok_iff.mpr
    (.down rfl hname.toIsPlain rfl (fun _ => Node.Part.noConfusion) (.here _ _))

theorem parse_linked : Route.parse "../out/../x" = .ok ⟨false, ["..", "out", "..", "x"], false⟩ := rfl

theorem files_linked (hentries : entries = [] ∨ entries = emptyList) (hidden : Bool) :
    (linkedWorkspace entries).root.files hidden 40 ["s"] [["s"]] 2 [("l.psd", .link "../out/../x")] =
      if entries = [] then [] else ([["l.psd"]] : List (List RawPath)) := by
  have hshort : ¬ Route.maxPathBytes < 2 + "l.psd".utf8ByteSize ∧
      ¬ Route.maxNameBytes < "out".utf8ByteSize ∧ ¬ Route.maxNameBytes < "x".utf8ByteSize := by decide
  have hvisible : Path.isHidden "l.psd" = false := by decide
  rcases hentries with rfl | rfl <;>
    simp [linkedWorkspace, emptyList, Node.files_cons, Node.files_nil, Node.visit, Node.Visit.paths, hshort,
      hvisible, Node.files.linked, parse_linked, Route.start, Route.steps, Node.follow, Node.at?, Node.lookup_cons_ite]

theorem collect_linked (hentries : entries = [] ∨ entries = emptyList) :
    FileList.collect (.ofWorkspace (linkedWorkspace entries) "s") ["*.psd"] =
      .ok (if entries = [] then [] else ["l.psd"]) := by
  have hstem : (Path.below "s" "").utf8ByteSize = 2 := by decide
  have hat : (linkedWorkspace entries).root.at? ["s"] = some (.dir [("l.psd", .link "../out/../x")]) := rfl
  have hlisting : (linkedWorkspace entries).listFiles "s" (Glob.namesHidden "*.psd") =
      .ok (if entries = [] then [] else ["l.psd"]) := by
    have hpath : Path.listed ["l.psd"] = "l.psd" := by decide +kernel
    rw [Workspace.listFiles_eq_ok locate_linked hat, hstem, files_linked hentries]
    rcases hentries with rfl | rfl <;> simp [emptyList, hpath]
  have hresolve : (Sources.ofWorkspace (linkedWorkspace entries) "s").resolve "*.psd" =
      .ok (if entries = [] then [] else ["l.psd"]) := by
    rw [Sources.resolve_of_listFiles hlisting]
    rcases hentries with rfl | rfl <;> decide +kernel
  simp only [FileList.collect, List.mapM_cons, List.mapM_nil, hresolve, bind, Except.bind, pure,
    Except.pure]
  split_ifs <;> simp [FileList.dropRepeats]

theorem refresh_linked : FileList.refresh (linkedWorkspace []) "s" ["*.psd"] "out/list" =
    (.ok true, linkedWorkspace emptyList) := by
  have hout : IsEntryName "out" := by decide
  have hlist : IsEntryName "list" := by decide
  have hroute : Route.parse "out/list" = .ok ⟨false, ["out", "list"], false⟩ := rfl
  have hparent : Path.parent? "out/list" = some "out" := by decide
  have hancestors : Path.ancestors "out" = ["out"] := by decide
  have hlength : ¬ Route.maxNameBytes < "out".utf8ByteSize := by decide
  have hread : (linkedWorkspace []).readText "out/list" = .error .notFound := by
    simp [Workspace.readText, Workspace.readBytes, Workspace.node, Workspace.locate, hroute,
      linkedWorkspace, bind, Except.bind, Route.steps, Route.start, Node.follow, Node.at?,
      Workspace.maxLinks, hlength, Node.lookup_cons_ite]
  have hmake : (linkedWorkspace []).makeDir "out" = .ok (linkedWorkspace [("out", .dir [])]) := by
    rw [Workspace.makeDir, Route.parse_name hout]
    simp [linkedWorkspace, bind, Except.bind, Route.start, Node.freePlace, Node.follow, Node.at?, Node.put,
      Node.putEntry, pure, Except.pure, hlength, Node.lookup_cons_ite]
  have hwrite : (linkedWorkspace [("out", .dir [])]).writeBytes "out/list" "".toUTF8 =
      .ok (linkedWorkspace emptyList) := by
    have hcreates : (linkedWorkspace [("out", .dir [])]).root.Creates 40 [] ⟨false, ["out", "list"], false⟩
        (["out"] ++ ["list"]) :=
      .here (.down rfl hout.toIsPlain rfl (fun _ => Node.Part.noConfusion) (.here _ _)) rfl rfl rfl
        hlist.toIsPlain (.inl rfl)
    rw [Workspace.writeBytes, hroute]
    exact bind_eq_ok_iff.mpr ⟨_, rfl, bind_eq_ok_iff.mpr ⟨_, hcreates.creationPlace, rfl⟩⟩
  have hmade : Workspace.writeIfChanged.makeParent (linkedWorkspace []) "out/list" =
      (.ok (), linkedWorkspace [("out", .dir [])]) := by
    rw [Workspace.writeIfChanged.makeParent, hparent]
    simp [Workspace.makeDirAll, hancestors, Workspace.makeDirs, hmake]
  have hmissing : (linkedWorkspace []).readText "out/list" ≠ .ok ("\n".intercalate []) := by
    intro h
    cases hread.symm.trans h
  exact FileList.refresh_eq_ok_iff.mpr ⟨[], collect_linked (.inl rfl),
    Workspace.writeIfChanged_eq_ok_iff.mpr (.inr ⟨rfl, hmissing, _, hmade, hwrite⟩)⟩

/-- The names that lead to a file lead to the one that was there all the time. -/
theorem place_of_linked {names : List RawPath} {place : Location}
    (hreaches : (linkedWorkspace emptyList).ReachesFile "s" names)
    (hleads : (linkedWorkspace emptyList).LeadsTo "s" names place) : place = ["x"] := by
  have hat : (linkedWorkspace emptyList).root.at? ["s"] = some (.dir [("l.psd", .link "../out/../x")]) := rfl
  have hstem : (RawPath.below "s" "").size = 2 := by decide
  have hmem : names ∈ ([["l.psd"]] : List (List RawPath)) := by
    have hfiles := (Workspace.mem_files_iff_reachesFile (onDisk_linked (.inr rfl)) locate_linked hat
      (List.forall_mem_nil _)).mpr
        ⟨⟨hreaches, fun _ _ _ _ _ _ hplace => absurd hplace List.not_mem_nil⟩, .inl rfl⟩
    rwa [hstem, files_linked (.inr rfl)] at hfiles
  obtain rfl := List.mem_singleton.mp hmem
  have hplain : ∀ name ∈ [("l.psd" : RawPath), "out", "x"], Node.IsPlain name := by
    have hnames : ∀ name ∈ [("l.psd" : RawPath), "out", "x"], IsEntryName name := by decide
    exact fun name hname => (hnames name hname).toIsPlain
  have hx : (linkedWorkspace emptyList).root.Leads 39 [] ["x"] ["x"] 39 :=
    .down rfl (hplain "x" (by decide)) rfl (fun _ => Node.Part.noConfusion) (.here _ _)
  refine Workspace.LeadsTo.unique ⟨_, 39, locate_linked, ?_⟩ hleads
  exact .link rfl (hplain "l.psd" (by decide)) rfl parse_linked
    (.up rfl (.down rfl (hplain "out" (by decide)) rfl (fun _ => Node.Part.noConfusion) (.up rfl hx)))

end Linked

/-- The second refresh finds the file behind the link. -/
theorem refresh_linked_again : ∃ w',
    FileList.refresh (linkedWorkspace emptyList) "s" ["*.psd"] "out/list" = (.ok true, w') := by
  obtain ⟨files', written', w'', hfiles', hagain, -, -⟩ :=
    FileList.refresh_again (onDisk_linked (.inl rfl)) refresh_linked
  cases (collect_linked (.inr rfl)).symm.trans hfiles'
  obtain ⟨files, hfiles, hwrite⟩ := FileList.refresh_eq_ok_iff.mp refresh_linked
  cases (collect_linked (.inl rfl)).symm.trans hfiles
  cases written' with
  | true => exact ⟨w'', hagain⟩
  | false =>
      obtain ⟨files, hfiles, hwrite'⟩ := FileList.refresh_eq_ok_iff.mp hagain
      cases (collect_linked (.inr rfl)).symm.trans hfiles
      rcases Workspace.writeIfChanged_eq_ok_iff.mp hwrite' with ⟨-, -, hread⟩ | ⟨hfalse, -⟩
      · exact absurd ((Workspace.readText_of_writeIfChanged hwrite).symm.trans hread) (by decide)
      · cases hfalse

theorem refresh_settles_linked :
    FileList.refresh (linkedWorkspace []) "s" ["*.psd"] "out/list" = (.ok true, linkedWorkspace emptyList) ∧
    (∃ names, FileList.Appears (linkedWorkspace []) (linkedWorkspace emptyList) "s" "out/list" names ["x"]) ∧
    ∀ n, 2 ≤ n → (FileList.refresh (FileList.refreshTimes (linkedWorkspace []) "s" ["*.psd"] "out/list" n)
      "s" ["*.psd"] "out/list").1 = .ok false := by
  obtain ⟨hrepeats, hwritten⟩ := FileList.refresh_settles (onDisk_linked (.inl rfl)) refresh_linked
  refine ⟨refresh_linked, ?_, fun n hn => ?_⟩
  · obtain ⟨w'', hagain⟩ := refresh_linked_again
    obtain ⟨-, -, names, place, -, happears⟩ := hwritten (by rw [hagain])
    cases place_of_linked happears.reaches happears.leads
    exact ⟨names, happears⟩
  · obtain ⟨written, files, hrefresh, -, -, hlater⟩ := hrepeats n
    rw [hrefresh, (hlater hn).1]

/-- The second refresh may write though no names lead to a file that the first has made. -/
theorem refresh_linked_not_created : ∃ w' w'',
    FileList.refresh (linkedWorkspace []) "s" ["*.psd"] "out/list" = (.ok true, w') ∧
    FileList.refresh w' "s" ["*.psd"] "out/list" = (.ok true, w'') ∧
    ¬ ∃ pattern ∈ ["*.psd"], ∃ names place content, Glob.Finds pattern names ∧ w'.ReachesFile "s" names ∧
      w'.LeadsTo "s" names place ∧ w'.root.part? place = some (.file content) ∧
        (linkedWorkspace []).root.part? place = none := by
  obtain ⟨w'', hagain⟩ := refresh_linked_again
  refine ⟨_, w'', refresh_linked, hagain, ?_⟩
  rintro ⟨-, -, names, place, content, -, hreaches, hleads, -, hnone⟩
  cases place_of_linked hreaches hleads
  cases hnone

end AssetPipeline
