import AssetPipeline.Proofs.Files.Reaching
import AssetPipeline.Proofs.Path.Parents

/-! Listed files by their joined paths. Names that lead from a directory to a file are followed from there
as they are from the path of the directory, so the path that is put together from that path and the names
is a path of the file, if only the system takes a path of that length. -/

namespace AssetPipeline

namespace Route

variable {root path : String} {texts : List String} {route : Route}

theorem parse_eq (hnul : '\x00' ∉ path.toList) (hlast : (Path.segments path).getLast? ≠ some "") :
    parse path = if maxPathBytes < path.utf8ByteSize then .error .nameTooLong
      else .ok ⟨path.toList.head? = some '/', ((Path.segments path).filter (· ≠ "")).map RawPath.ofString,
        false⟩ := by
  have hne : path ≠ "" := by
    rintro rfl
    exact hlast rfl
  rw [parse_ofString, if_neg (by simpa using hnul), if_neg hne]
  simp only [hlast, decide_false]

theorem parse_dot : parse "." = .ok ⟨false, ["."], false⟩ := rfl

section Names

variable (hne : texts ≠ []) (hnames : ∀ text ∈ texts, IsEntryName text)
include hnames

theorem ne_empty_of_names : ∀ text ∈ texts, text ≠ "" := by
  rintro text htext rfl
  exact (hnames "" htext).ne_empty rfl

theorem slash_notMem_of_names : ∀ text ∈ texts, '/' ∉ text.toList :=
  fun text htext hslash => (hnames text htext).slash_notMem (RawPath.slash_mem_ofString_iff.mpr hslash)

theorem filter_names : texts.filter (· ≠ "") = texts :=
  List.filter_eq_self.mpr fun text htext => decide_eq_true (ne_empty_of_names hnames text htext)

theorem getLast?_names : texts.getLast? ≠ some "" :=
  fun h => ne_empty_of_names hnames "" (List.mem_of_getLast? h) rfl

theorem nul_notMem_intercalate : '\x00' ∉ ("/".intercalate texts).toList := by
  rw [String.toList_intercalate]
  refine notMem_intercalate (by decide) ?_
  rw [List.forall_mem_map]
  exact fun text htext hnul => (hnames text htext).nul_notMem (RawPath.zero_mem_ofString_iff.mpr hnul)

include hne

theorem segments_names : Path.segments ("/".intercalate texts) = texts :=
  Path.segments_intercalate hne (slash_notMem_of_names hnames)

theorem head?_intercalate : ("/".intercalate texts).toList.head? ≠ some '/' := by
  obtain ⟨text, texts, rfl⟩ := List.exists_cons_of_ne_nil hne
  obtain ⟨rest, hrest⟩ : ∃ rest, ("/".intercalate (text :: texts)).toList = text.toList ++ rest := by
    rw [String.toList_intercalate, List.map_cons]
    cases texts with
    | nil => exact ⟨[], by simp⟩
    | cons next texts => exact ⟨_, by rw [List.map_cons, List.intercalate_cons_cons, List.append_assoc]⟩
  have hchars : text.toList ≠ [] := by simpa using ne_empty_of_names hnames text List.mem_cons_self
  rw [hrest, List.head?_append_of_ne_nil _ hchars]
  exact fun h => slash_notMem_of_names hnames text List.mem_cons_self (List.mem_of_mem_head? h)

theorem parse_intercalate : parse (("/".intercalate texts : String) : RawPath) =
    if maxPathBytes < ("/".intercalate texts).utf8ByteSize then .error .nameTooLong
    else .ok ⟨false, texts.map RawPath.ofString, false⟩ := by
  have hsegments := segments_names hne hnames
  have hlast : (Path.segments ("/".intercalate texts)).getLast? ≠ some "" := by
    rw [hsegments]
    exact getLast?_names hnames
  rw [parse_eq (nul_notMem_intercalate hnames) hlast, hsegments, filter_names hnames,
    decide_eq_false (head?_intercalate hne hnames)]

/-- The path of what lies some names below a root. -/
theorem parse_joinRoot (hparse : parse root = .ok route) :
    parse (Path.joinRoot root ("/".intercalate texts)) =
      if maxPathBytes < (Path.joinRoot root ("/".intercalate texts)).utf8ByteSize then .error .nameTooLong
      else .ok ⟨route.absolute, (if root = "." then [] else route.names) ++ texts.map RawPath.ofString, false⟩ := by
  by_cases hdot : root = "."
  · subst hdot
    cases parse_dot.symm.trans hparse
    rw [Path.joinRoot, if_pos (.inr rfl), parse_intercalate hne hnames, if_pos rfl, List.nil_append]
  · rw [parse_ofString] at hparse
    split_ifs at hparse with hnul hempty hlength
    cases hparse
    have hroot : root.toList ≠ [] := by simpa using hempty
    have htrimmed : Chars.trimEnd '/' root.toList <+: root.toList := List.rdropWhile_prefix _ _
    have hjoined : Path.joinRoot root ("/".intercalate texts) = _ := Path.joinRoot_eq hempty hdot
    have hsegments : Path.segments (Path.joinRoot root ("/".intercalate texts)) =
        Path.segments (String.ofList (Chars.trimEnd '/' root.toList)) ++ texts := by
      rw [hjoined, Path.segments_append_slash, segments_names hne hnames]
    have hchars : (Path.joinRoot root ("/".intercalate texts)).toList =
        Chars.trimEnd '/' root.toList ++ '/' :: ("/".intercalate texts).toList := by
      rw [hjoined]
      simp
    rw [parse_eq, hsegments, List.filter_append, filter_names hnames, Path.segments_trimEnd,
      String.ofList_toList, hchars, Path.head?_trimEnd_append _ _ hroot, if_neg hdot, List.map_append]
    · rw [hchars, List.mem_append, List.mem_cons]
      rintro (h | h | h)
      · exact hnul (List.contains_iff_mem.mpr (htrimmed.subset h))
      · cases h
      · exact nul_notMem_intercalate hnames h
    · rw [hsegments, List.getLast?_append_of_ne_nil _ hne]
      exact getLast?_names hnames

end Names

end Route

/-! ### Listed files -/

namespace Workspace

variable {w : Workspace} {path : RawPath} {root : String} {names : List RawPath} {found : Found maxLinks}

/-- Where something is under a name, a directory of the tree has an entry of that name. -/
theorem exists_dir_of_child? {P : List RawPath → Prop} (hroot : w.root.Each P) {name : RawPath}
    (h : (w.child? path name).isSome = true) : ∃ entries, P entries ∧ name ∈ entries := by
  obtain ⟨found, entries, hlocate, hat⟩ := exists_of_child? h
  rw [child?_eq hlocate hat] at h
  obtain ⟨node, hlookup⟩ := Option.isSome_iff_exists.mp h
  obtain ⟨front, back, hentries, -⟩ := List.lookup_eq_some_iff.mp hlookup
  refine ⟨_, (Node.Each.dir_iff.mp (hroot.at? hat)).1, List.mem_map.mpr ⟨(name, node), ?_, rfl⟩⟩
  rw [hentries]
  exact List.mem_append_right _ List.mem_cons_self

theorem ReachesFile.exists_dir {P : List RawPath → Prop} (hroot : w.root.Each P)
    (h : w.ReachesFile path names) : ∀ name ∈ names, ∃ entries, P entries ∧ name ∈ entries := by
  intro name hname
  obtain ⟨front, rest, rfl⟩ := List.append_of_mem hname
  exact exists_dir_of_child? hroot (h.entry front name rest rfl)

theorem isEntryName_of_child? (hdisk : w.root.OnDisk) {name : RawPath}
    (h : (w.child? path name).isSome = true) : IsEntryName name := by
  obtain ⟨entries, ⟨-, hnames⟩, hname⟩ := exists_dir_of_child? hdisk h
  exact hnames name hname

theorem ReachesFile.isEntryName (hdisk : w.root.OnDisk) (h : w.ReachesFile path names) :
    ∀ name ∈ names, IsEntryName name := by
  intro name hname
  obtain ⟨entries, ⟨-, hnames⟩, hmem⟩ := h.exists_dir hdisk name hname
  exact hnames name hmem

theorem ReachesFile.segments_eq (hdisk : w.root.OnDisk) (h : w.ReachesFile path names) :
    Path.segments (RawPath.join names).shown = names.map RawPath.shown :=
  Path.segments_shown_join h.ne_nil fun name hname => (h.isEntryName hdisk name hname).slash_notMem

theorem ReachesFile.isOrdinary (hdisk : w.root.OnDisk) (h : w.ReachesFile path names) :
    Path.IsOrdinary (RawPath.join names).shown := by
  intro segment hsegment
  rw [h.segments_eq hdisk] at hsegment
  obtain ⟨name, hname, rfl⟩ := List.mem_map.mp hsegment
  have hname := h.isEntryName hdisk name hname
  simp only [Ne, RawPath.shown_eq_iff (show '\uFFFD' ∉ "".toList by decide),
    RawPath.shown_eq_iff (show '\uFFFD' ∉ ".".toList by decide),
    RawPath.shown_eq_iff (show '\uFFFD' ∉ "..".toList by decide)]
  exact ⟨hname.ne_empty, hname.ne_here, hname.ne_up⟩

/-- A file that a directory has under a name is found by that name. -/
theorem HasFile.leads (hdisk : w.root.OnDisk) (hlocate : w.locate path = .ok found) {name : RawPath}
    (h : w.HasFile path name) : ∃ place left content,
      w.root.Leads found.left found.place [name] place left ∧ w.root.part? place = some (.file content) := by
  have hchild := h.isSome_child?
  have hname := isEntryName_of_child? hdisk hchild
  rcases h with ⟨content, hcontent⟩ | ⟨-, hfile⟩
  · obtain ⟨found', entries, hlocate', hat⟩ := exists_of_child? hchild
    cases hlocate.symm.trans hlocate'
    rw [child?_eq hlocate hat, ← Node.at?_concat hat, ← Node.part?_eq_file_iff] at hcontent
    refine ⟨_, _, content, .down (Node.part?_eq_dir_iff.mpr ⟨entries, hat⟩) hname.toIsPlain hcontent
      (fun _ => Node.Part.noConfusion) (.here _ _), hcontent⟩
  · obtain ⟨found', content, hbelow, hpart⟩ := isFile_iff.mp hfile
    exact ⟨_, _, content, ((locate_below hlocate hname).mp ⟨found'.left_le, hbelow⟩).2, hpart⟩

/-- Names that lead to a file by the paths of the directories on the way lead to it from the first of
these directories. -/
theorem ReachesFile.leads (hdisk : w.root.OnDisk) (hlocate : w.locate path = .ok found)
    (h : w.ReachesFile path names) : ∃ place left content,
      w.root.Leads found.left found.place names place left ∧ w.root.part? place = some (.file content) := by
  induction names generalizing path found with
  | nil => exact absurd rfl h.ne_nil
  | cons name rest ih =>
      have hchild := h.entry [] name rest rfl
      have hname := isEntryName_of_child? hdisk hchild
      obtain ⟨found', entries, hlocate', hat⟩ := exists_of_child? hchild
      cases hlocate.symm.trans hlocate'
      have hdirs : ∀ place ∈ [found.place], w.root.part? place = some .dir :=
        List.forall_mem_singleton.mpr (Node.part?_eq_dir_iff.mpr ⟨entries, hat⟩)
      have havoids : w.Avoids [] path (name :: rest) :=
        fun _ _ _ _ _ place hplace => absurd hplace List.not_mem_nil
      rcases ((reachesFile_cons_iff hlocate hdirs).mp ⟨h, havoids⟩).2 with ⟨rfl, hfile⟩ | ⟨-, hrest, -⟩
      · exact hfile.leads hdisk hlocate
      · obtain ⟨next, more, rfl⟩ := List.exists_cons_of_ne_nil hrest.ne_nil
        obtain ⟨found', -, hbelow, -⟩ := exists_of_child? (hrest.entry [] next more rfl)
        obtain ⟨place, left, content, hleads, hpart⟩ := ih hbelow hrest
        have hfirst := ((locate_below hlocate hname).mp ⟨found'.left_le, hbelow⟩).2
        exact ⟨place, left, content, hfirst.append hleads, hpart⟩

/-- What names lead to is a file under the joined path, too, unless that is too long for the system. -/
theorem isFile_joinRoot_iff (hdisk : w.root.OnDisk) (h : w.ReachesFile root names)
    (hkept : ∀ name ∈ names, name.IsKept) :
    w.isFile (Path.joinRoot root (RawPath.join names).shown) = true ↔
      (Path.joinRoot root (RawPath.join names).shown).utf8ByteSize ≤ Route.maxPathBytes := by
  have hnames : ∀ text ∈ names.map RawPath.shown, IsEntryName text := by
    rw [List.forall_mem_map]
    intro name hname
    rw [(hkept name hname).ofString_shown]
    exact h.isEntryName hdisk name hname
  obtain ⟨found, hlocate⟩ : ∃ found, w.locate root = .ok found := by
    obtain ⟨name, rest, rfl⟩ := List.exists_cons_of_ne_nil h.ne_nil
    obtain ⟨found, -, hlocate, -⟩ := exists_of_child? (h.entry [] name rest rfl)
    exact ⟨found, hlocate⟩
  obtain ⟨route, hparse, hroot⟩ := exists_route_of_locate hlocate
  obtain ⟨place, left, content, hleads, hpart⟩ := h.leads hdisk hlocate
  have hjoined := Route.parse_joinRoot (by simpa using h.ne_nil) hnames hparse
  rw [RawPath.map_ofString_shown hkept, ← RawPath.shown_join] at hjoined
  rw [isFile_iff]
  constructor
  · rintro ⟨found', content', hlocate', -⟩
    by_contra hlong
    rw [if_pos (Nat.not_le.mp hlong)] at hjoined
    rw [locate, hjoined] at hlocate'
    cases hlocate'
  · intro hshort
    rw [if_neg (Nat.not_lt.mpr hshort)] at hjoined
    have hsteps : w.root.Leads maxLinks (route.start w.cwd)
        ((if root = "." then [] else route.names) ++ names) place left := by
      split_ifs with hdot
      · subst hdot
        cases Route.parse_dot.symm.trans hparse
        obtain ⟨hplace, hleft⟩ := hroot.of_stay
        rwa [hplace, hleft] at hleads
      · exact hroot.append hleads
    obtain ⟨hle, hfollow⟩ := hsteps.follow
    refine ⟨⟨place, left, hle⟩, content, ?_, hpart⟩
    rw [locate, hjoined]
    exact hfollow

/-! ### Names that are listed as they are -/

/-- Every name on the way from a directory to a file is listed as it is. -/
def KeepsNames (w : Workspace) (root : String) : Prop :=
  ∀ names, w.ReachesFile root names → ∀ name ∈ names, name.IsKept

namespace KeepsNames

theorem of_each (h : w.root.Each fun names => ∀ name ∈ names, name.IsKept) (root : String) :
    w.KeepsNames root := by
  intro names hreaches name hname
  obtain ⟨entries, hentries, hmem⟩ := hreaches.exists_dir h name hname
  exact hentries name hmem

variable (hdisk : w.root.OnDisk) (hkeeps : w.KeepsNames root)
include hdisk hkeeps

theorem map_segments (h : w.ReachesFile root names) :
    (Path.segments (RawPath.join names).shown).map RawPath.ofString = names := by
  rw [h.segments_eq hdisk, RawPath.map_ofString_shown (hkeeps names h)]

theorem isVisible_iff (h : w.ReachesFile root names) :
    Path.isVisible (RawPath.join names).shown = true ↔ ∀ name ∈ names, isHidden name = false := by
  rw [Path.isVisible, h.segments_eq hdisk, List.all_map, List.all_eq_true]
  refine forall₂_congr fun name hname => ?_
  rw [Function.comp_apply, (hkeeps names h name hname).isHidden_shown, Bool.not_eq_true']

/-- A listing then has no path twice, and each is that of the names that lead to a file. -/
theorem exists_files (hdir : w.isDir root = true) (hidden : Bool) :
    ∃ files, w.listFiles root hidden = .ok files ∧ files.Pairwise (· < ·) ∧
      ∀ file, file ∈ files ↔ ∃ names, w.ReachesFile root names ∧
        (hidden = true ∨ ∀ name ∈ names, isHidden name = false) ∧ (RawPath.join names).shown = file := by
  obtain ⟨paths, hpaths, hnodup, hmem⟩ := exists_paths hdisk hdir hidden
  have hlisted : paths.map Path.listed = paths.map fun names => (RawPath.join names).shown := by
    refine List.map_congr_left fun names hnames => Path.listed_eq fun name hname => ?_
    exact (hkeeps names ((hmem names).mp hnames).1 name hname).backslash_notMem
  rw [hlisted] at hpaths
  refine ⟨_, hpaths, pairwise_lt_mergeSort ?_, fun file => ?_⟩
  · refine hnodup.map_on fun names hnames other hother heq => ?_
    rw [← hkeeps.map_segments hdisk ((hmem names).mp hnames).1, heq,
      hkeeps.map_segments hdisk ((hmem other).mp hother).1]
  · rw [mem_mergeSort_map_iff]
    simp only [hmem, and_assoc]

end KeepsNames

end Workspace

theorem Sources.lists_ofWorkspace {w : Workspace} {root : String} (hdisk : w.root.OnDisk)
    (hkeeps : w.KeepsNames root) : (Sources.ofWorkspace w root).Lists := by
  constructor
  · intro hidden files h
    obtain ⟨files', hfiles', hordered, -⟩ :=
      hkeeps.exists_files hdisk (Workspace.isDir_of_listFiles h) hidden
    cases h.symm.trans hfiles'
    exact hordered
  · change w.listFiles root false = (w.listFiles root true).map (List.filter Path.isVisible)
    cases hdir : w.isDir root with
    | false =>
        rw [Workspace.listFiles_of_isDir_eq_false hdir, Workspace.listFiles_of_isDir_eq_false hdir, Except.map]
    | true =>
        obtain ⟨all, hall, hordered, hmem⟩ := hkeeps.exists_files hdisk hdir true
        obtain ⟨visible, hvisible, hordered', hmem'⟩ := hkeeps.exists_files hdisk hdir false
        rw [hall, hvisible, Except.map, Except.ok.injEq]
        refine eq_of_pairwise_lt hordered' (hordered.filter _) fun file => ?_
        rw [hmem', List.mem_filter, hmem]
        constructor
        · rintro ⟨names, hreaches, hnames, rfl⟩
          exact ⟨⟨names, hreaches, .inl rfl, rfl⟩,
            (hkeeps.isVisible_iff hdisk hreaches).mpr (hnames.resolve_left Bool.false_ne_true)⟩
        · rintro ⟨⟨names, hreaches, -, rfl⟩, hfile⟩
          exact ⟨names, hreaches, .inr ((hkeeps.isVisible_iff hdisk hreaches).mp hfile), rfl⟩

end AssetPipeline
