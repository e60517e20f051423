import AssetPipeline.Proofs.FileList.Settling

/-! What a refresh tells. The list holds the files of the last refresh that succeeded, one to a line, for as
long as nothing else writes it. So the next one writes exactly if the lines differ, whatever has happened
to the tree in between. Where no name holds a line feed the lines are the files, and the lines differ
exactly if the files do. -/

namespace AssetPipeline

/-! ### Lines -/

section Lines

variable {l l' : List String}

theorem splitOn_lines (hne : l ≠ []) (hline : ∀ text ∈ l, '\n' ∉ text.toList) :
    ("\n".intercalate l).toList.splitOn '\n' = l.map String.toList := by
  rw [String.toList_intercalate]
  refine List.splitOn_intercalate '\n' ?_ (by simpa using hne)
  rw [List.forall_mem_map]
  exact hline

theorem eq_nil_of_lines_eq_empty (hempty : "" ∉ l) (hline : ∀ text ∈ l, '\n' ∉ text.toList)
    (h : "\n".intercalate l = "") : l = [] := by
  by_contra hne
  have hsplit := splitOn_lines hne hline
  rw [h] at hsplit
  have hmem : [] ∈ l.map String.toList := by
    rw [← hsplit]
    simp
  obtain ⟨text, htext, hnil⟩ := List.mem_map.mp hmem
  rw [String.toList_eq_nil_iff] at hnil
  exact hempty (hnil ▸ htext)

/-- Texts that are not empty can be told from their lines, if each is one line. -/
theorem eq_of_lines_eq (hempty : "" ∉ l) (hempty' : "" ∉ l')
    (hline : ∀ text ∈ l ++ l', '\n' ∉ text.toList) (h : "\n".intercalate l = "\n".intercalate l') :
    l = l' := by
  rw [List.forall_mem_append] at hline
  by_cases hnil : l = []
  · subst hnil
    exact (eq_nil_of_lines_eq_empty hempty' hline.2 h.symm).symm
  by_cases hnil' : l' = []
  · subst hnil'
    exact eq_nil_of_lines_eq_empty hempty hline.1 h
  have hsplit := splitOn_lines hnil hline.1
  rw [h, splitOn_lines hnil' hline.2] at hsplit
  exact List.map_injective_iff.mpr (fun _ _ heq => String.toList_injective heq) hsplit.symm

end Lines

namespace FileList

variable {w w' : Workspace} {root output : String} {patterns files files' : List String}
  {written : Bool} {text : String} {failure : Failure}

/-! ### What is collected -/

theorem empty_notMem_collect (hdisk : w.root.OnDisk)
    (h : collect (.ofWorkspace w root) patterns = .ok files) : "" ∉ files := by
  intro hempty
  obtain ⟨-, found, hfound, hmem⟩ := collect_eq_ok h
  obtain ⟨own, hown, hempty⟩ := (hmem "").mp hempty
  obtain ⟨pattern, -, hresolve⟩ := exists_of_forall₂ hfound hown
  obtain ⟨glob, hglob, hlisting⟩ := bind_eq_ok_iff.mp hresolve
  obtain ⟨all, hall, -⟩ := bind_eq_ok_iff.mp hlisting
  have hdir := Workspace.isDir_of_listFiles (mapError_eq_ok_iff.mp hall)
  obtain ⟨paths, hpaths, -, hreaches⟩ := Workspace.exists_found hdisk hglob hdir
  cases hpaths.symm.trans hresolve
  obtain ⟨names, hnames, hslashed⟩ := List.mem_map.mp ((List.mergeSort_perm _ _).mem_iff.mp hempty)
  have hreached := ((hreaches names).mp hnames).1
  have hjoined : (RawPath.join names).shown = "" := by
    rw [Path.listed, Path.slashed, ← String.toList_eq_nil_iff, String.toList_map, List.map_eq_nil_iff] at hslashed
    exact String.toList_eq_nil_iff.mp hslashed
  exact (hreached.isOrdinary hdisk "" (by rw [hjoined]; exact List.mem_cons_self)).1 rfl

/-- Files that no name breaks into lines are known by the text of their list. -/
theorem lines_eq_iff {w₁ w₂ : Workspace} (hdisk₁ : w₁.root.OnDisk) (hdisk₂ : w₂.root.OnDisk)
    (h₁ : collect (.ofWorkspace w₁ root) patterns = .ok files)
    (h₂ : collect (.ofWorkspace w₂ root) patterns = .ok files')
    (hline : ∀ file ∈ files ++ files', '\n' ∉ file.toList) :
    "\n".intercalate files' = "\n".intercalate files ↔ ∀ file, file ∈ files' ↔ file ∈ files := by
  constructor
  · intro heq
    rw [eq_of_lines_eq (empty_notMem_collect hdisk₁ h₁) (empty_notMem_collect hdisk₂ h₂) hline heq.symm]
    exact fun _ => Iff.rfl
  · intro hmem
    rw [eq_of_pairwise_lt (collect_eq_ok h₂).1 (collect_eq_ok h₁).1 hmem]

/-! ### Histories -/

/-- What happens to a tree: the list is refreshed, or something else changes the tree. -/
inductive Event where
  | refresh
  | change (after : Workspace)

/-- A refresh that succeeded: the tree that it found, and whether it wrote. -/
structure Success where
  tree : Workspace
  written : Bool

/-- The refreshes that succeed in a history, in order. -/
def successes (root : String) (patterns : List String) (output : String) :
    Workspace → List Event → List Success
  | _, [] => []
  | _, .change after :: events => successes root patterns output after events
  | w, .refresh :: events =>
    match refresh w root patterns output with
    | (.ok written, after) => ⟨w, written⟩ :: successes root patterns output after events
    | (.error _, after) => successes root patterns output after events

/-- Nothing but refreshes has a part in what the list reads as. -/
def Undisturbed (root : String) (patterns : List String) (output : String) :
    Workspace → List Event → Prop
  | _, [] => True
  | w, .change after :: events =>
    after.root.OnDisk ∧ (after.readText output).toOption = (w.readText output).toOption ∧
      Undisturbed root patterns output after events
  | w, .refresh :: events =>
    Undisturbed root patterns output (refresh w root patterns output).2 events

/-- The later of two refreshes wrote exactly if the lines of the files that are found have changed. That
is, if the files have changed, unless a name is more than one line. -/
def Tracks (root : String) (patterns : List String) (earlier later : Success) : Prop :=
  ∃ files files', collect (.ofWorkspace earlier.tree root) patterns = .ok files ∧
    collect (.ofWorkspace later.tree root) patterns = .ok files' ∧
    (later.written = true ↔ "\n".intercalate files' ≠ "\n".intercalate files) ∧
    ((∀ file ∈ files ++ files', '\n' ∉ file.toList) →
      (later.written = true ↔ ¬ ∀ file, file ∈ files' ↔ file ∈ files))

variable {events : List Event} {earlier : Success}

/-- A refresh that succeeds writes exactly if the list reads otherwise than what there is to collect, and
leaves it so that it reads like that. -/
theorem written_iff (h : refresh w root patterns output = (.ok written, w'))
    (hread : w.readText output = .ok text) : ∃ files, collect (.ofWorkspace w root) patterns = .ok files ∧
      w'.readText output = .ok ("\n".intercalate files) ∧
      (written = true ↔ "\n".intercalate files ≠ text) := by
  obtain ⟨files, hfiles, hwrite⟩ := refresh_eq_ok_iff.mp h
  refine ⟨files, hfiles, Workspace.readText_of_writeIfChanged hwrite, ?_⟩
  rcases Workspace.writeIfChanged_eq_ok_iff.mp hwrite with ⟨rfl, -, hsame⟩ | ⟨rfl, hother, -⟩
  · cases hread.symm.trans hsame
    exact iff_of_false Bool.false_ne_true fun hne => hne rfl
  · refine iff_of_true rfl ?_
    rintro rfl
    exact hother hread

/-- As long as the list reads like what an earlier refresh found, the next one that succeeds tells what has
changed since. -/
theorem isChain_successes_cons (hdiskEarlier : earlier.tree.root.OnDisk)
    (hfiles : collect (.ofWorkspace earlier.tree root) patterns = .ok files) (hdisk : w.root.OnDisk)
    (hread : w.readText output = .ok ("\n".intercalate files))
    (hevents : Undisturbed root patterns output w events) :
    (earlier :: successes root patterns output w events).IsChain (Tracks root patterns) := by
  induction events generalizing w earlier files with
  | nil => exact .singleton _
  | cons event events ih =>
      cases event with
      | change after =>
          obtain ⟨hdisk', hsame, hrest⟩ := hevents
          rw [hread] at hsame
          obtain ⟨text, hread', rfl⟩ := exists_ok_of_toOption_map (f := id) (by rw [hsame]; rfl)
          exact ih hdiskEarlier hfiles hdisk' hread' hrest
      | refresh =>
          have hdisk' := onDisk_refresh hdisk root patterns output
          rw [Undisturbed] at hevents
          rw [successes]
          cases hrefresh : refresh w root patterns output with
          | mk result after =>
              rw [hrefresh] at hdisk' hevents
              cases result with
              | error failure =>
                  exact ih hdiskEarlier hfiles hdisk' ((gainsDirectories_of_refresh hrefresh).readText hread)
                    hevents
              | ok written =>
                  obtain ⟨files', hfiles', hread', hwritten⟩ := written_iff hrefresh hread
                  refine .cons_cons ⟨files, files', hfiles, hfiles', hwritten, fun hline => ?_⟩
                    (ih hdisk hfiles' hdisk' hread' hevents)
                  rw [hwritten, ne_eq, lines_eq_iff hdiskEarlier hdisk hfiles hfiles' hline]

/-- In any history in which nothing but refreshes has a part in what the list reads as, every refresh that
succeeds after another one writes exactly if the lines of the found files differ from those at the last
one that succeeded; and where no name is more than one line, exactly if the set of found files does. -/
theorem refreshes_track (hdisk : w.root.OnDisk) (hevents : Undisturbed root patterns output w events) :
    (successes root patterns output w events).IsChain (Tracks root patterns) := by
  induction events generalizing w with
  | nil => exact .nil
  | cons event events ih =>
      cases event with
      | change after =>
          obtain ⟨hdisk', -, hrest⟩ := hevents
          exact ih hdisk' hrest
      | refresh =>
          have hdisk' := onDisk_refresh hdisk root patterns output
          rw [Undisturbed] at hevents
          rw [successes]
          cases hrefresh : refresh w root patterns output with
          | mk result after =>
              rw [hrefresh] at hdisk' hevents
              cases result with
              | error failure => exact ih hdisk' hevents
              | ok written =>
                  obtain ⟨files, hfiles, hwrite⟩ := refresh_eq_ok_iff.mp hrefresh
                  exact isChain_successes_cons hdisk hfiles hdisk'
                    (Workspace.readText_of_writeIfChanged hwrite) hevents

end FileList

/-! ### A name of two lines -/

/-- A directory of empty files, and what lies next to it. -/
def namedWorkspace (names : List String) (others : List (RawPath × Node)) : Workspace :=
  ⟨.dir (("s", .dir (fileEntries (names.map RawPath.ofString))) :: others), []⟩

/-- A list with a text in it. -/
def listEntries (text : String) : List (RawPath × Node) :=
  [(".list", .file text.toUTF8)]

/-- The files before and after, two times. -/
def trackedNames : List (List String) :=
  [["a", "b"], ["a"], ["a\nb"]]

section Named

variable {names : List String} {others : List (RawPath × Node)}

theorem onDisk_named (hnames : names ∈ trackedNames) (hothers : others = [] ∨ ∃ text, others = listEntries text) :
    (namedWorkspace names others).root.OnDisk := by
  have htracked : ∀ names ∈ trackedNames,
      (names.map RawPath.ofString).Nodup ∧ ∀ name ∈ names, IsEntryName name := by decide
  have hentry : ∀ name ∈ [("s" : RawPath), ".list"], IsEntryName name := by decide
  obtain ⟨hnodup, hnames⟩ := htracked names hnames
  rcases hothers with rfl | ⟨text, rfl⟩ <;>
    simp_all [namedWorkspace, fileEntries, listEntries, Node.OnDisk, Function.comp_def]

theorem locate_named : (namedWorkspace names others).locate "s" = .ok ⟨["s"], 40, Nat.le_refl 40⟩ := by
  have hname : IsEntryName "s" := by decide
  rw [Workspace.locate, Route.parse_name hname]
  exact Node.follow_eq_ok_iff.mpr
    (.down rfl hname.toIsPlain rfl (fun _ => Node.Part.noConfusion) (.here _ _))

theorem collect_named (hnames : names ∈ trackedNames) :
    FileList.collect (.ofWorkspace (namedWorkspace names others) "s") ["*"] = .ok names := by
  have hat : (namedWorkspace names others).root.at? ["s"] =
      some (.dir (fileEntries (names.map RawPath.ofString))) := rfl
  have hvisible : ∀ names ∈ trackedNames, ∀ name ∈ names.map RawPath.ofString, isHidden name = false := by
    decide +kernel
  have hsorted : ∀ names ∈ trackedNames, names.Pairwise (· ≤ ·) := by decide
  have hlisted : ∀ names ∈ trackedNames,
      ((names.map RawPath.ofString).map fun name => [name]).map Path.listed = names := by decide +kernel
  have hpicked : ∀ names ∈ trackedNames,
      (Sources.mk "s" fun _ => .ok names).resolve "*" = .ok names := by decide +kernel
  have hdropped : ∀ names ∈ trackedNames, FileList.dropRepeats names = names := by decide
  have hlisting : (namedWorkspace names others).listFiles "s" (Glob.namesHidden "*") = .ok names := by
    rw [Workspace.listFiles_eq_ok locate_named hat, files_fileEntries (hvisible names hnames),
      hlisted names hnames, List.mergeSort_of_pairwise]
    exact (hsorted names hnames).imp fun h => decide_eq_true h
  have hresolve : (Sources.ofWorkspace (namedWorkspace names others) "s").resolve "*" = .ok names := by
    rw [Sources.resolve_of_listFiles hlisting, hpicked names hnames]
  have hmerged : names.mergeSort (· ≤ ·) = names :=
    List.mergeSort_of_pairwise ((hsorted names hnames).imp fun h => decide_eq_true h)
  simp only [FileList.collect, List.mapM_cons, List.mapM_nil, hresolve, bind, Except.bind, pure,
    Except.pure, List.flatten_cons, List.flatten_nil, List.append_nil, hmerged, hdropped names hnames]

theorem readText_named {text : String} : (namedWorkspace names (listEntries text)).readText ".list" = .ok text := by
  have hname : IsEntryName ".list" := by decide
  have hlocate : (namedWorkspace names (listEntries text)).locate ".list" =
      .ok ⟨[".list"], 40, Nat.le_refl 40⟩ := by
    rw [Workspace.locate, Route.parse_name hname]
    exact Node.follow_eq_ok_iff.mpr
      (.down rfl hname.toIsPlain rfl (fun _ => Node.Part.noConfusion) (.here _ _))
  exact Workspace.readText_of_readBytes (Workspace.readBytes_eq_ok_iff.mpr ⟨_, hlocate, rfl⟩)

/-- Where the list is missing or has another text it is written. -/
theorem refresh_named (hnames : names ∈ trackedNames)
    (hothers : others = [] ∨ ∃ text, others = listEntries text ∧ text ≠ "\n".intercalate names) :
    FileList.refresh (namedWorkspace names others) "s" ["*"] ".list" =
      (.ok true, namedWorkspace names (listEntries ("\n".intercalate names))) := by
  have hname : IsEntryName ".list" := by decide
  have hparent : Path.parent? ".list" = some "" := by decide
  have hread : (namedWorkspace names others).readText ".list" ≠ .ok ("\n".intercalate names) := by
    rcases hothers with rfl | ⟨text, rfl, hne⟩
    · intro hread
      obtain ⟨bytes, hbytes, -⟩ := bind_eq_ok_iff.mp hread
      obtain ⟨found, hlocate, hpart⟩ := Workspace.readBytes_eq_ok_iff.mp hbytes
      rw [Workspace.locate, Route.parse_name hname] at hlocate
      obtain ⟨-, ⟨part, hpart, -⟩ | ⟨target, route, budget, hpart, -⟩⟩ :=
        (Node.leads_singleton_iff hname.toIsPlain).mp (Node.follow_eq_ok_iff.mp hlocate) <;> cases hpart
    · rw [readText_named]
      exact fun h => hne (Except.ok.inj h)
  have hcreates : (namedWorkspace names others).root.Creates 40 [] ⟨false, [".list"], false⟩
      ([] ++ [(".list" : RawPath)]) := by
    refine .here (.here _ _) rfl rfl rfl hname.toIsPlain ?_
    rcases hothers with rfl | ⟨text, rfl, -⟩
    · exact .inl rfl
    · exact .inr ⟨_, rfl⟩
  have hput : (namedWorkspace names others).writeBytes ".list" ("\n".intercalate names).toUTF8 =
      .ok (namedWorkspace names (listEntries ("\n".intercalate names))) := by
    rw [Workspace.writeBytes, Route.parse_name hname]
    refine bind_eq_ok_iff.mpr ⟨_, rfl, bind_eq_ok_iff.mpr ⟨_, hcreates.creationPlace, ?_⟩⟩
    rcases hothers with rfl | ⟨text, rfl, -⟩ <;> rfl
  have hmade : Workspace.writeIfChanged.makeParent (namedWorkspace names others) ".list" =
      (.ok (), namedWorkspace names others) := by
    rw [Workspace.writeIfChanged.makeParent, hparent]
    rfl
  exact FileList.refresh_eq_ok_iff.mpr ⟨names, collect_named hnames,
    Workspace.writeIfChanged_eq_ok_iff.mpr (.inr ⟨rfl, hread, _, hmade, hput⟩)⟩

/-- Two files are listed, and then the list is refreshed with other files there. -/
def history (names : List String) : List FileList.Event :=
  [.refresh, .change (namedWorkspace names (listEntries "a\nb")), .refresh]

theorem refresh_two_files : FileList.refresh (namedWorkspace ["a", "b"] []) "s" ["*"] ".list" =
    (.ok true, namedWorkspace ["a", "b"] (listEntries "a\nb")) :=
  refresh_named (by decide) (.inl rfl)

theorem undisturbed_history (names : List String) (hnames : names ∈ trackedNames) :
    FileList.Undisturbed "s" ["*"] ".list" (namedWorkspace ["a", "b"] []) (history names) := by
  rw [history, FileList.Undisturbed, refresh_two_files]
  refine ⟨onDisk_named hnames (.inr ⟨_, rfl⟩), ?_, trivial⟩
  rw [readText_named, readText_named]

end Named

/-- One of the files goes, and the second refresh tells so. -/
theorem refreshes_track_removed :
    FileList.successes "s" ["*"] ".list" (namedWorkspace ["a", "b"] []) (history ["a"]) =
      [⟨namedWorkspace ["a", "b"] [], true⟩, ⟨namedWorkspace ["a"] (listEntries "a\nb"), true⟩] ∧
    List.IsChain (FileList.Tracks "s" ["*"])
      [⟨namedWorkspace ["a", "b"] [], true⟩, ⟨namedWorkspace ["a"] (listEntries "a\nb"), true⟩] := by
  have hremoved : FileList.refresh (namedWorkspace ["a"] (listEntries "a\nb")) "s" ["*"] ".list" =
      (.ok true, namedWorkspace ["a"] (listEntries "a")) :=
    refresh_named (by decide) (.inr ⟨_, rfl, by decide⟩)
  have hsuccesses :
      FileList.successes "s" ["*"] ".list" (namedWorkspace ["a", "b"] []) (history ["a"]) =
        [⟨namedWorkspace ["a", "b"] [], true⟩, ⟨namedWorkspace ["a"] (listEntries "a\nb"), true⟩] := by
    simp only [history, FileList.successes, refresh_two_files, hremoved]
  have htracks := FileList.refreshes_track (onDisk_named (by decide) (.inl rfl))
    (undisturbed_history ["a"] (by decide))
  rw [hsuccesses] at htracks
  exact ⟨hsuccesses, htracks⟩

/-- Both files go, and one comes whose name has their names as its lines. The second refresh does not tell. -/
theorem refresh_two_lines :
    FileList.Undisturbed "s" ["*"] ".list" (namedWorkspace ["a", "b"] []) (history ["a\nb"]) ∧
    FileList.successes "s" ["*"] ".list" (namedWorkspace ["a", "b"] []) (history ["a\nb"]) =
      [⟨namedWorkspace ["a", "b"] [], true⟩, ⟨namedWorkspace ["a\nb"] (listEntries "a\nb"), false⟩] ∧
    FileList.collect (.ofWorkspace (namedWorkspace ["a", "b"] []) "s") ["*"] = .ok ["a", "b"] ∧
    FileList.collect (.ofWorkspace (namedWorkspace ["a\nb"] (listEntries "a\nb")) "s") ["*"] = .ok ["a\nb"] := by
  have hsettled : FileList.Settled (namedWorkspace ["a\nb"] (listEntries "a\nb")) "s" ["*"] ".list" :=
    ⟨["a\nb"], collect_named (by decide), readText_named⟩
  refine ⟨undisturbed_history _ (by decide), ?_, collect_named (by decide), collect_named (by decide)⟩
  simp only [history, FileList.successes, refresh_two_files, hsettled.refresh_eq]

end AssetPipeline
