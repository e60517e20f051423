import AssetPipeline.Proofs.Files.Entries
import AssetPipeline.Proofs.Files.Listing

/-! What a listing holds. Its paths are the sequences of names that lead from the directory to a file.
Each name is looked up by the path so far, and no link among them may lead back to a directory that the
path has come through. Only links are watched for that: below a link out of the directory, the directory
itself may be entered again. -/

namespace AssetPipeline

/-- The path of what lies some names below a directory. -/
def RawPath.descend (path : RawPath) (names : List RawPath) : RawPath :=
  names.foldl below path

theorem RawPath.descend_concat (path : RawPath) (names : List RawPath) (name : RawPath) :
    descend path (names ++ [name]) = below (descend path names) name :=
  List.foldl_concat ..

namespace Workspace

variable (w : Workspace)

/-- Where a path leads, links followed. -/
def placeOf (path : RawPath) : Option Location :=
  (w.locate path).toOption.map (·.place)

/-- What a directory has under a name. A link there is not followed. -/
def child? (dir name : RawPath) : Option Node :=
  match w.node dir with
  | .ok (.dir entries) => entries.lookup name
  | _ => none

/-- A directory has a file under a name, or a link to one. -/
def HasFile (dir name : RawPath) : Prop :=
  (∃ content, w.child? dir name = some (.file content)) ∨
    (∃ target, w.child? dir name = some (.link target)) ∧ w.isFile (RawPath.below dir name) = true

/-- No link among names leads back to a directory that they have come through. -/
def LeadsForward (path : RawPath) (names : List RawPath) : Prop :=
  ∀ front name rest, names = front ++ name :: rest →
    (∃ target, w.child? (RawPath.descend path front) name = some (.link target)) →
    ∀ outer, outer <+: front →
      w.placeOf (RawPath.descend path (front ++ [name])) ≠ w.placeOf (RawPath.descend path outer)

/-- Names lead from a directory to a file. -/
structure ReachesFile (path : RawPath) (names : List RawPath) : Prop where
  ne_nil : names ≠ []
  /-- The names so far lead to a directory, and it has an entry of the next name. -/
  entry : ∀ front name rest, names = front ++ name :: rest →
    (w.child? (RawPath.descend path front) name).isSome = true
  /-- The last name is that of a file. -/
  file : ∀ front name, names = front ++ [name] → w.HasFile (RawPath.descend path front) name
  forward : w.LeadsForward path names

/-- No link among names leads to one of some places. -/
def Avoids (above : List Location) (path : RawPath) (names : List RawPath) : Prop :=
  ∀ front name rest, names = front ++ name :: rest →
    (∃ target, w.child? (RawPath.descend path front) name = some (.link target)) →
    ∀ place ∈ above, w.placeOf (RawPath.descend path (front ++ [name])) ≠ some place

end Workspace

/-! ### Membership -/

theorem forall_split_cons {α : Type} {P : List α → α → List α → Prop} {a : α} {l : List α} :
    (∀ front x back, a :: l = front ++ x :: back → P front x back) ↔
      P [] a l ∧ ∀ front x back, l = front ++ x :: back → P (a :: front) x back := by
  constructor
  · intro h
    exact ⟨h [] a l rfl, fun front x back hl => h (a :: front) x back (by rw [hl]; rfl)⟩
  · rintro ⟨hhead, htail⟩ front x back hsplit
    cases front with
    | nil =>
        cases hsplit
        exact hhead
    | cons b front =>
        cases hsplit
        exact htail front x back rfl

namespace Node

variable {root node : Node} {entries : List (RawPath × Node)} {hidden : Bool} {budget stem : Nat}
  {here : Location} {above : List Location} {name : RawPath} {names : List RawPath}

theorem mem_iff_lookup (hnodup : (entries.map (·.1)).Nodup) :
    (name, node) ∈ entries ↔ entries.lookup name = some node := by
  induction entries with
  | nil => simp
  | cons entry entries ih =>
      obtain ⟨first, other⟩ := entry
      rw [List.map_cons, List.nodup_cons] at hnodup
      rw [List.mem_cons, lookup_cons_ite, ih hnodup.2]
      by_cases hfirst : name = first
      · subst hfirst
        rw [if_pos rfl, Prod.mk.injEq]
        refine ⟨?_, fun h => .inl ⟨rfl, (Option.some.inj h).symm⟩⟩
        rintro (⟨-, rfl⟩ | hlookup)
        · rfl
        · exact absurd (List.mem_map_of_mem ((ih hnodup.2).mpr hlookup)) hnodup.1
      · rw [if_neg hfirst, Prod.mk.injEq]
        simp [hfirst]

theorem mem_files_iff : names ∈ root.files hidden budget here above stem entries ↔
    ∃ name node rest, (name, node) ∈ entries ∧ names = name :: rest ∧
      (hidden = true ∨ isHidden name = false) ∧
      (root.visit budget here above (stem + name.size) name node = .take ∧ rest = [] ∨
        ∃ left place below,
          root.visit budget here above (stem + name.size) name node =
            .enter left place below ∧
          rest ∈ root.files hidden left place (place :: above)
            (stem + name.size + 1) below) := by
  induction entries with
  | nil => simp [files_nil]
  | cons entry entries ih =>
      obtain ⟨first, other⟩ := entry
      rw [files_cons, List.mem_append, ih]
      constructor
      · rintro (hfirst | ⟨name, node, rest, hmem, h⟩)
        · split_ifs at hfirst with hskip
          · cases hfirst
          · obtain ⟨rest, rfl, hrest⟩ := Visit.mem_paths_iff.mp hfirst
            refine ⟨first, other, rest, List.mem_cons_self, rfl, ?_, hrest⟩
            cases hidden <;> simp_all
        · exact ⟨name, node, rest, List.mem_cons_of_mem _ hmem, h⟩
      · rintro ⟨name, node, rest, hmem, rfl, hvisible, hrest⟩
        rcases List.mem_cons.mp hmem with heq | hmem
        · cases heq
          refine .inl ?_
          rw [if_neg]
          · exact Visit.mem_paths_iff.mpr ⟨rest, rfl, hrest⟩
          · rintro ⟨hhidden, hnot⟩
            rcases hvisible with hvisible | hvisible
            · exact hnot hvisible
            · rw [hhidden] at hvisible
              cases hvisible
        · exact .inr ⟨name, node, rest, hmem, rfl, hvisible, hrest⟩

end Node

namespace Workspace

variable {w : Workspace} {path name : RawPath} {found : Found maxLinks} {entries : List (RawPath × Node)}
  {names rest : List RawPath} {above : List Location} {hidden : Bool}

theorem child?_eq (hlocate : w.locate path = .ok found)
    (hat : w.root.at? found.place = some (.dir entries)) :
    w.child? path name = entries.lookup name := by
  rw [child?, node_eq_ok_iff.mpr ⟨found, hlocate, hat⟩]

theorem exists_of_child? (h : (w.child? path name).isSome = true) :
    ∃ found entries, w.locate path = .ok found ∧ w.root.at? found.place = some (.dir entries) := by
  rw [child?] at h
  split at h
  · rename_i entries hnode
    obtain ⟨found, hlocate, hat⟩ := node_eq_ok_iff.mp hnode
    exact ⟨found, entries, hlocate, hat⟩
  · cases h

theorem placeOf_eq (hlocate : w.locate path = .ok found) : w.placeOf path = some found.place := by
  rw [placeOf, hlocate]
  rfl

theorem HasFile.isSome_child? (h : w.HasFile path name) : (w.child? path name).isSome = true := by
  rcases h with ⟨content, hcontent⟩ | ⟨⟨target, htarget⟩, -⟩
  · rw [hcontent]
    rfl
  · rw [htarget]
    rfl

theorem HasFile.placeOf_ne (h : w.HasFile path name)
    (htarget : ∃ target, w.child? path name = some (.link target)) {place : Location}
    (hdir : w.root.part? place = some .dir) : w.placeOf (RawPath.below path name) ≠ some place := by
  obtain ⟨target, htarget⟩ := htarget
  rcases h with ⟨content, hcontent⟩ | ⟨-, hfile⟩
  · rw [htarget] at hcontent
    cases hcontent
  · obtain ⟨found, content, hlocate, hpart⟩ := isFile_iff.mp hfile
    rw [placeOf_eq hlocate]
    rintro heq
    cases heq
    rw [hdir] at hpart
    cases hpart

theorem reachesFile_singleton_iff : w.ReachesFile path [name] ↔ w.HasFile path name := by
  have hsplit : ∀ {front last rest}, [name] = front ++ last :: rest → front = [] ∧ last = name ∧ rest = [] := by
    intro front last rest heq
    cases front with
    | nil =>
        cases heq
        exact ⟨rfl, rfl, rfl⟩
    | cons first front => simp at heq
  refine ⟨fun h => h.file [] name rfl, fun h => ?_⟩
  have hchild := h.isSome_child?
  obtain ⟨found, entries, hlocate, hat⟩ := exists_of_child? hchild
  refine ⟨List.cons_ne_nil _ _, fun front last rest heq => ?_, fun front last heq => ?_, ?_⟩
  · obtain ⟨rfl, rfl, -⟩ := hsplit heq
    exact hchild
  · obtain ⟨rfl, rfl, -⟩ := hsplit heq
    exact h
  · intro front last rest heq htarget outer houter
    obtain ⟨rfl, rfl, -⟩ := hsplit heq
    rw [List.prefix_nil.mp houter, show w.placeOf (RawPath.descend path []) = some found.place from
      placeOf_eq hlocate]
    exact h.placeOf_ne htarget (Node.part?_eq_dir_iff.mpr ⟨entries, hat⟩)

theorem avoids_cons_iff {place : Location} : w.Avoids (place :: above) path names ↔
    w.Avoids [place] path names ∧ w.Avoids above path names := by
  constructor
  · intro h
    refine ⟨fun front name back hsplit htarget => ?_, fun front name back hsplit htarget => ?_⟩
    · rw [List.forall_mem_singleton]
      exact (List.forall_mem_cons.mp (h front name back hsplit htarget)).1
    · exact (List.forall_mem_cons.mp (h front name back hsplit htarget)).2
  · rintro ⟨h, habove⟩ front name back hsplit htarget
    exact List.forall_mem_cons.mpr ⟨h front name back hsplit htarget _ (List.mem_singleton_self _),
      habove front name back hsplit htarget⟩

/-- The names after the first are to avoid what all are to avoid. -/
theorem avoids_name_cons_iff : w.Avoids above path (name :: rest) ↔
    ((∃ target, w.child? path name = some (.link target)) →
      ∀ place ∈ above, w.placeOf (RawPath.below path name) ≠ some place) ∧
    w.Avoids above (RawPath.below path name) rest :=
  forall_split_cons

/-- The names after the first are to avoid the directory before the first, too. -/
theorem leadsForward_cons_iff (hlocate : w.locate path = .ok found) :
    w.LeadsForward path (name :: rest) ↔
      w.Avoids [found.place] path (name :: rest) ∧ w.LeadsForward (RawPath.below path name) rest := by
  have hplace : w.placeOf (RawPath.descend path []) = some found.place := placeOf_eq hlocate
  constructor
  · intro h
    refine ⟨fun front last back hsplit htarget => ?_, fun front last back hsplit htarget outer houter => ?_⟩
    · rw [List.forall_mem_singleton, ← hplace]
      exact h front last back hsplit htarget [] List.nil_prefix
    · exact (forall_split_cons.mp h).2 front last back hsplit htarget (name :: outer)
        (List.cons_prefix_cons.mpr ⟨rfl, houter⟩)
  · rintro ⟨havoids, hforward⟩ front last back hsplit htarget outer houter
    cases outer with
    | nil =>
        rw [hplace]
        exact havoids front last back hsplit htarget _ (List.mem_singleton_self _)
    | cons first outer =>
        obtain ⟨more, rfl⟩ := houter
        cases hsplit
        exact hforward (outer ++ more) last back rfl htarget outer (List.prefix_append _ _)

/-- Names lead to a file if the first is that of a file, or if the others lead to a file from where it
leads. -/
theorem reachesFile_cons_iff (hlocate : w.locate path = .ok found)
    (hdirs : ∀ place ∈ found.place :: above, w.root.part? place = some .dir) :
    (w.ReachesFile path (name :: rest) ∧ w.Avoids above path (name :: rest)) ↔
      (w.child? path name).isSome = true ∧
        (rest = [] ∧ w.HasFile path name ∨
          ((∃ target, w.child? path name = some (.link target)) →
            ∀ place ∈ found.place :: above, w.placeOf (RawPath.below path name) ≠ some place) ∧
          w.ReachesFile (RawPath.below path name) rest ∧
          w.Avoids (found.place :: above) (RawPath.below path name) rest) := by
  have hforward : w.LeadsForward path (name :: rest) ∧ w.Avoids above path (name :: rest) ↔
      w.Avoids (found.place :: above) path (name :: rest) ∧
        w.LeadsForward (RawPath.below path name) rest := by
    have hall : w.Avoids (found.place :: above) path (name :: rest) ↔
        w.Avoids [found.place] path (name :: rest) ∧ w.Avoids above path (name :: rest) :=
      avoids_cons_iff
    rw [leadsForward_cons_iff hlocate, hall, and_right_comm]
  have hnames : w.Avoids (found.place :: above) path (name :: rest) ↔ _ := avoids_name_cons_iff
  rw [hnames] at hforward
  constructor
  · rintro ⟨h, havoids⟩
    obtain ⟨hentry, hentries⟩ := forall_split_cons.mp h.entry
    obtain ⟨⟨hlink, havoids⟩, hrest⟩ := hforward.mp ⟨h.forward, havoids⟩
    refine ⟨hentry, ?_⟩
    cases rest with
    | nil => exact .inl ⟨rfl, h.file [] name rfl⟩
    | cons next rest =>
        refine .inr ⟨hlink,
          ⟨List.cons_ne_nil _ _, hentries, fun front last hsplit => ?_, hrest⟩, havoids⟩
        exact h.file (name :: front) last (by rw [hsplit]; rfl)
  · rintro ⟨hentry, ⟨rfl, hfile⟩ | ⟨hlink, h, havoids⟩⟩
    · have hnone : ∀ front x back, ([] : List RawPath) ≠ front ++ x :: back := by simp
      obtain ⟨hforward, havoids⟩ := hforward.mpr
        ⟨⟨fun htarget place hplace => hfile.placeOf_ne htarget (hdirs place hplace),
          fun _ _ _ h => absurd h (hnone _ _ _)⟩, fun _ _ _ h => absurd h (hnone _ _ _)⟩
      refine ⟨⟨List.cons_ne_nil _ _, ?_, fun front last hsplit => ?_, hforward⟩, havoids⟩
      · exact forall_split_cons.mpr ⟨hentry, fun _ _ _ h => absurd h (hnone _ _ _)⟩
      · obtain ⟨hnil, hlast⟩ := List.append_inj' (show [] ++ [name] = front ++ [last] from hsplit) rfl
        cases hlast
        cases hnil
        exact hfile
    · obtain ⟨hforward, havoids⟩ := hforward.mpr ⟨⟨hlink, havoids⟩, h.forward⟩
      refine ⟨⟨List.cons_ne_nil _ _, forall_split_cons.mpr ⟨hentry, h.entry⟩,
        fun front last hsplit => ?_, hforward⟩, havoids⟩
      cases front with
      | nil => exact absurd (List.cons.inj hsplit).2 h.ne_nil
      | cons first front =>
          cases hsplit
          exact h.file front last rfl

theorem cons_mem_files_iff (hnodup : (entries.map (·.1)).Nodup)
    (hnames : ∀ name ∈ entries.map (·.1), IsEntryName name) {here : Location} {budget : Nat} :
    name :: rest ∈ w.root.files hidden budget here above (RawPath.below path "").size entries ↔
      ∃ node, entries.lookup name = some node ∧ (hidden = true ∨ isHidden name = false) ∧
        (w.root.visit budget here above (RawPath.below path name).size name node = .take ∧
            rest = [] ∨
          ∃ left place below,
            w.root.visit budget here above (RawPath.below path name).size name node =
              .enter left place below ∧
            rest ∈ w.root.files hidden left place (place :: above)
              (RawPath.below (RawPath.below path name) "").size below) := by
  rw [Node.mem_files_iff]
  constructor
  · rintro ⟨_, node, _, hmem, ⟨rfl, rfl⟩, h⟩
    have hname := hnames _ (List.mem_map_of_mem hmem)
    rw [← RawPath.size_below, ← RawPath.size_below_below hname] at h
    exact ⟨node, (Node.mem_iff_lookup hnodup).mp hmem, h⟩
  · rintro ⟨node, hlookup, h⟩
    have hmem := (Node.mem_iff_lookup hnodup).mpr hlookup
    have hname := hnames _ (List.mem_map_of_mem hmem)
    rw [RawPath.size_below_below hname, RawPath.size_below] at h
    exact ⟨name, node, rest, hmem, rfl, h⟩

/-- The files that a walk finds are those that names lead to. -/
theorem mem_files_iff_reachesFile (hdisk : w.root.OnDisk) (hlocate : w.locate path = .ok found)
    (hat : w.root.at? found.place = some (.dir entries))
    (habove : ∀ place ∈ above, w.root.part? place = some .dir) :
    names ∈ w.root.files hidden found.left found.place (found.place :: above)
        (RawPath.below path "").size entries ↔
      (w.ReachesFile path names ∧ w.Avoids above path names) ∧
        (hidden = true ∨ ∀ name ∈ names, isHidden name = false) := by
  induction names generalizing path found entries above with
  | nil =>
      refine iff_of_false ?_ fun h => h.1.1.ne_nil rfl
      rw [Node.mem_files_iff]
      rintro ⟨name, node, rest, -, h, -⟩
      cases h
  | cons name rest ih =>
      have hdir := Node.part?_eq_dir_iff.mpr ⟨entries, hat⟩
      have hdirs : ∀ place ∈ found.place :: above, w.root.part? place = some .dir :=
        List.forall_mem_cons.mpr ⟨hdir, habove⟩
      obtain ⟨hnodup, hnames⟩ := (Node.Each.dir_iff.mp (hdisk.at? hat)).1
      rw [cons_mem_files_iff hnodup hnames, reachesFile_cons_iff hlocate hdirs, HasFile,
        child?_eq hlocate hat]
      cases hlookup : entries.lookup name with
      | none => simp
      | some node =>
          have hname := hnames _ (List.mem_map_of_mem ((Node.mem_iff_lookup hnodup).mpr hlookup))
          have hnode : w.root.at? (found.place ++ [name]) = some node :=
            (Node.at?_concat hat).trans hlookup
          simp only [Option.some.injEq, exists_eq_left', Option.isSome_some, true_and,
            visit_eq_take_iff hlocate hname hdir hnode, visit_eq_enter_iff hlocate hname hdir hnode]
          constructor
          · rintro ⟨hvisible, ⟨hfile, rfl⟩ |
              ⟨_, _, below, ⟨found', hbelow, rfl, rfl, hat', hlink⟩, hrest⟩⟩
            · exact ⟨.inl ⟨rfl, hfile⟩, hvisible.imp_right fun h => by simpa using h⟩
            · obtain ⟨hreaches, hvisible'⟩ := (ih hbelow hat' hdirs).mp hrest
              refine ⟨.inr ⟨fun htarget place hmem heq => ?_, hreaches⟩, ?_⟩
              · rw [placeOf_eq hbelow] at heq
                cases heq
                exact hlink htarget hmem
              · rw [List.forall_mem_cons, or_and_left]
                exact ⟨hvisible, hvisible'⟩
          · rintro ⟨⟨rfl, hfile⟩ | ⟨hlink, hreaches⟩, hvisible⟩ <;>
              rw [List.forall_mem_cons, or_and_left] at hvisible
            · exact ⟨hvisible.1, .inl ⟨hfile, rfl⟩⟩
            · obtain ⟨next, more, rfl⟩ := List.exists_cons_of_ne_nil hreaches.1.ne_nil
              obtain ⟨found', below, hbelow, hat'⟩ :=
                exists_of_child? (hreaches.1.entry [] next more rfl)
              refine ⟨hvisible.1, .inr ⟨_, _, below, ⟨found', hbelow, rfl, rfl, hat', ?_⟩, ?_⟩⟩
              · exact fun htarget hmem => hlink htarget _ hmem (placeOf_eq hbelow)
              · exact (ih hbelow hat' hdirs).mpr ⟨hreaches, hvisible.2⟩

/-- A listing is made of the names that lead to a file. -/
theorem exists_paths {root : String} (hdisk : w.root.OnDisk) (hdir : w.isDir root = true) (hidden : Bool) :
    ∃ paths : List (List RawPath),
      w.listFiles root hidden = .ok ((paths.map Path.listed).mergeSort (· ≤ ·)) ∧
      paths.Nodup ∧ ∀ names, names ∈ paths ↔
        w.ReachesFile root names ∧ (hidden = true ∨ ∀ name ∈ names, isHidden name = false) := by
  obtain ⟨found, hlocate, hpart⟩ := isDir_iff.mp hdir
  obtain ⟨entries, hat⟩ := Node.part?_eq_dir_iff.mp hpart
  have hnodup := hdisk.imp fun names h => h.1
  refine ⟨_, listFiles_eq_ok hlocate hat hidden, Node.nodup_files hnodup (hnodup.at? hat), fun names => ?_⟩
  rw [← RawPath.size_ofString, RawPath.ofString_below,
    mem_files_iff_reachesFile hdisk hlocate hat (List.forall_mem_nil _)]
  have havoids : w.Avoids [] root names :=
    fun _ _ _ _ _ place hplace => absurd hplace List.not_mem_nil
  rw [and_iff_left havoids]

/-! ### More in the tree -/

section Mono

variable {before after : Workspace} (hcwd : after.cwd = before.cwd)
  (hholds : after.root.Holds before.root)
include hcwd hholds

theorem isFile_mono (h : before.isFile path = true) : after.isFile path = true := by
  obtain ⟨found, content, hlocate, hpart⟩ := isFile_iff.mp h
  obtain ⟨content', hpart'⟩ := hholds.file hpart
  exact isFile_iff.mpr ⟨found, content', locate_mono hcwd hholds hlocate, hpart'⟩

theorem isDir_mono (h : before.isDir path = true) : after.isDir path = true := by
  obtain ⟨found, hlocate, hpart⟩ := isDir_iff.mp h
  exact isDir_iff.mpr ⟨found, locate_mono hcwd hholds hlocate, hholds.dir hpart⟩

theorem placeOf_mono (h : (before.locate path).isOk = true) : after.placeOf path = before.placeOf path := by
  cases hlocate : before.locate path with
  | error fault =>
      rw [hlocate] at h
      cases h
  | ok found => rw [placeOf_eq (locate_mono hcwd hholds hlocate), placeOf_eq hlocate]

/-- An entry of a directory is still there, and it is a file, a link or a directory as before. -/
theorem child?_mono {node : Node} (h : before.child? path name = some node) :
    ∃ node', after.child? path name = some node' ∧
      ((∃ content, node = .file content) → ∃ content, node' = .file content) ∧
      ∀ target, node' = .link target ↔ node = .link target := by
  obtain ⟨found, entries, hlocate, hat⟩ := exists_of_child? (Option.isSome_iff_exists.mpr ⟨node, h⟩)
  obtain ⟨entries', hat'⟩ := Node.part?_eq_dir_iff.mp
    (hholds.dir (Node.part?_eq_dir_iff.mpr ⟨entries, hat⟩))
  rw [child?_eq hlocate hat, ← Node.at?_concat hat] at h
  rw [child?_eq (locate_mono hcwd hholds hlocate) hat', ← Node.at?_concat hat']
  cases node with
  | file content =>
      obtain ⟨content', hpart⟩ := hholds.file (Node.part?_eq_file_iff.mpr h)
      refine ⟨.file content', Node.part?_eq_file_iff.mp hpart, fun _ => ⟨content', rfl⟩, fun target => ?_⟩
      exact iff_of_false Node.noConfusion Node.noConfusion
  | dir below =>
      obtain ⟨below', hat''⟩ := Node.part?_eq_dir_iff.mp
        (hholds.dir (Node.part?_eq_dir_iff.mpr ⟨below, h⟩))
      refine ⟨.dir below', hat'', ?_, fun target => iff_of_false Node.noConfusion Node.noConfusion⟩
      rintro ⟨content, hcontent⟩
      cases hcontent
  | link target =>
      refine ⟨.link target, Node.part?_eq_link_iff.mp (hholds.link (Node.part?_eq_link_iff.mpr h)), ?_,
        fun _ => Iff.rfl⟩
      rintro ⟨content, hcontent⟩
      cases hcontent

theorem HasFile.mono (h : before.HasFile path name) : after.HasFile path name := by
  rcases h with ⟨content, hcontent⟩ | ⟨⟨target, htarget⟩, hfile⟩
  · obtain ⟨node', hnode', hkeeps, -⟩ := child?_mono hcwd hholds hcontent
    obtain ⟨content', rfl⟩ := hkeeps ⟨content, rfl⟩
    exact .inl ⟨content', hnode'⟩
  · obtain ⟨node', hnode', -, hlink⟩ := child?_mono hcwd hholds htarget
    rw [(hlink target).mpr rfl] at hnode'
    exact .inr ⟨⟨target, hnode'⟩, isFile_mono hcwd hholds hfile⟩

/-- Names that led to a file lead to one still. -/
theorem ReachesFile.mono (h : before.ReachesFile path names) : after.ReachesFile path names := by
  have hlocates : ∀ front name rest, names = front ++ name :: rest →
      (before.locate (RawPath.descend path front)).isOk = true := by
    intro front name rest hsplit
    obtain ⟨found, entries, hlocate, -⟩ := exists_of_child? (h.entry front name rest hsplit)
    rw [hlocate]
    rfl
  have hchild : ∀ front name rest, names = front ++ name :: rest →
      ∃ node node', before.child? (RawPath.descend path front) name = some node ∧
        after.child? (RawPath.descend path front) name = some node' ∧
        ∀ target, node' = .link target ↔ node = .link target := by
    intro front name rest hsplit
    obtain ⟨node, hnode⟩ := Option.isSome_iff_exists.mp (h.entry front name rest hsplit)
    obtain ⟨node', hnode', -, hlink⟩ := child?_mono hcwd hholds hnode
    exact ⟨node, node', hnode, hnode', hlink⟩
  refine ⟨h.ne_nil, fun front name rest hsplit => ?_, fun front name hsplit => ?_, ?_⟩
  · obtain ⟨-, node', -, hnode', -⟩ := hchild front name rest hsplit
    exact Option.isSome_iff_exists.mpr ⟨node', hnode'⟩
  · exact (h.file front name hsplit).mono hcwd hholds
  · rintro front name rest hsplit ⟨target, htarget⟩ outer houter
    obtain ⟨node, node', hnode, hnode', hlink⟩ := hchild front name rest hsplit
    rw [hnode'] at htarget
    cases htarget
    rw [(hlink target).mp rfl] at hnode
    have hnext : (before.locate (RawPath.descend path (front ++ [name]))).isOk = true := by
      cases rest with
      | nil =>
          rcases h.file front name hsplit with ⟨content, hcontent⟩ | ⟨-, hfile⟩
          · rw [hnode] at hcontent
            cases hcontent
          · obtain ⟨found, -, hlocate, -⟩ := isFile_iff.mp hfile
            rw [RawPath.descend_concat, hlocate]
            rfl
      | cons next rest => exact hlocates (front ++ [name]) next rest (by simp [hsplit])
    have houterLocates : (before.locate (RawPath.descend path outer)).isOk = true := by
      obtain ⟨more, rfl⟩ := houter
      cases more with
      | nil => exact hlocates outer name rest (by simpa using hsplit)
      | cons next more => exact hlocates outer next (more ++ name :: rest) (by simpa using hsplit)
    rw [placeOf_mono hcwd hholds hnext, placeOf_mono hcwd hholds houterLocates]
    exact h.forward front name rest hsplit ⟨target, hnode⟩ outer houter

end Mono

end Workspace

/-- The listing of a source directory holds, in the order of their bytes and once for each, the paths
from it to a file; hidden names are on them only on request. What is no directory is reported. -/
theorem Sources.list_ofWorkspace {w : Workspace} (hdisk : w.root.OnDisk) (root : String)
    (hidden : Bool) :
    (w.isDir root = true → ∃ (paths : List (List RawPath)) (files : List String),
      (Sources.ofWorkspace w root).list hidden = .ok files ∧
      paths.Nodup ∧
      (∀ names, names ∈ paths ↔
        w.ReachesFile root names ∧ (hidden = true ∨ ∀ name ∈ names, isHidden name = false)) ∧
      files.Perm (paths.map Path.listed) ∧
      files.Pairwise fun a b => utf8Bytes a ≤ utf8Bytes b) ∧
    (w.isDir root = false → (Sources.ofWorkspace w root).list hidden = .error (.sourceDirectory root
      (match w.locate root with
        | .error fault => .file fault
        | .ok _ => .notADirectory))) := by
  have hlist : (Sources.ofWorkspace w root).list hidden =
      (w.listFiles root hidden).mapError (.sourceDirectory root) := rfl
  rw [hlist]
  constructor
  · intro hdir
    obtain ⟨paths, hpaths, hnodup, hmem⟩ := Workspace.exists_paths hdisk hdir hidden
    rw [hpaths]
    exact ⟨paths, _, rfl, hnodup, hmem, List.mergeSort_perm _ _,
      (pairwise_mergeSort _).imp fun hle => utf8Bytes_le_iff.mpr hle⟩
  · intro hdir
    rw [Workspace.listFiles_of_isDir_eq_false hdir]
    rfl

/-- A directory with a file and a link to the directory that it lies in. -/
def loopedWorkspace : Workspace :=
  ⟨.dir [("t", .dir [("s", .dir [("a", .file .empty), ("up", .link "..")])])], []⟩

theorem onDisk_looped : loopedWorkspace.root.OnDisk := by
  have hnames : ∀ name ∈ ([("t" : RawPath), "s", "a", "up"]), IsEntryName name := by decide
  simp_all [loopedWorkspace, Node.OnDisk]

theorem locate_looped : loopedWorkspace.locate "t/s" = .ok ⟨["t", "s"], 40, Nat.le_refl 40⟩ := by
  have hroute : Route.parse "t/s" = .ok ⟨false, ["t", "s"], false⟩ := rfl
  have hlength : ∀ name ∈ ["t", "s"], ¬ Route.maxNameBytes < name.utf8ByteSize := by decide
  rw [Workspace.locate, hroute]
  simp [loopedWorkspace, bind, Except.bind, Route.steps, Route.start, Node.follow, Node.at?,
    Workspace.maxLinks, hlength]

theorem list_ofWorkspace_looped : loopedWorkspace.isDir "t/s" = true ∧ ∃ files,
    (Sources.ofWorkspace loopedWorkspace "t/s").list false = .ok files ∧
      files.Pairwise (fun a b => utf8Bytes a ≤ utf8Bytes b) ∧
      (loopedWorkspace.ReachesFile "t/s" ["a"] → "a" ∈ files) := by
  have hdir : loopedWorkspace.isDir "t/s" = true :=
    Workspace.isDir_iff.mpr ⟨_, locate_looped, rfl⟩
  obtain ⟨paths, files, hfiles, -, hpaths, hperm, hordered⟩ :=
    (Sources.list_ofWorkspace onDisk_looped "t/s" false).1 hdir
  refine ⟨hdir, files, hfiles, hordered, fun hreaches => hperm.mem_iff.mpr ?_⟩
  exact List.mem_map.mpr ⟨["a"], (hpaths _).mpr ⟨hreaches, by decide⟩, by decide +kernel⟩

/-- A name of some length. -/
def longName (length : Nat) : RawPath :=
  String.ofList (List.replicate length 'x')

theorem size_longName (length : Nat) : (longName length).size = length := by
  rw [longName, RawPath.size_ofString]
  induction length with
  | zero => rfl
  | succ length ih =>
      rw [List.replicate_succ', String.ofList_append, String.utf8ByteSize_append, ih]
      rfl

/-- Directories one in the other, and a file in the innermost. -/
def nested : Nat → Node
  | 0 => .file .empty
  | depth + 1 => .dir [(longName 250, nested depth)]

theorem at?_nested (depth : Nat) :
    (nested depth).at? (List.replicate depth (longName 250)) = some (.file .empty) := by
  induction depth with
  | zero => rfl
  | succ depth ih => simpa [nested, List.replicate_succ, Node.at?] using ih

/-- A file too deep for the system to look into its directory is not found. -/
theorem files_nested {root : Node} {budget depth stem : Nat} {here : Location} {above : List Location}
    (h : Route.maxPathBytes < stem + depth * 251 + 250) :
    root.files false budget here above stem [(longName 250, nested (depth + 1))] = [] := by
  have hsize : (longName 250).size = 250 := size_longName 250
  have hvisible : isHidden (longName 250) = false := by
    rw [longName, RawPath.isHidden_ofString, Path.isHidden, String.toList_ofList]
    rfl
  have hdir : ∀ depth, nested (depth + 1) = .dir [(longName 250, nested depth)] := fun _ => rfl
  induction depth generalizing budget here above stem with
  | zero =>
      have hlong : Route.maxPathBytes < stem + 250 := by omega
      rw [Node.files_cons, Node.files_nil, hdir]
      simp [Node.visit, Node.Visit.paths, hsize, hvisible, hlong]
  | succ depth ih =>
      rw [Node.files_cons, Node.files_nil, hdir]
      by_cases hlong : Route.maxPathBytes < stem + 250
      · simp [Node.visit, Node.Visit.paths, hsize, hvisible, hlong]
      · have hrest : Route.maxPathBytes < stem + 250 + 1 + depth * 251 + 250 := by omega
        simp [Node.visit, Node.Visit.paths, hsize, hvisible, hlong, ih hrest]

def deepWorkspace : Workspace :=
  ⟨.dir [("s", nested 18)], []⟩

theorem at?_deep : deepWorkspace.root.at? (("s" : RawPath) :: List.replicate 18 (longName 250)) =
    some (.file .empty) := by
  rw [deepWorkspace, Node.at?, show List.lookup ("s" : RawPath) [("s", nested 18)] = some (nested 18) from rfl,
    Option.bind_some, at?_nested]

theorem listFiles_deep : deepWorkspace.listFiles "s" false = .ok [] := by
  have hlocate : deepWorkspace.locate "s" = .ok ⟨["s"], 40, Nat.le_refl 40⟩ :=
    Workspace.locate_single (by decide)
  have hstem : (Path.below "s" "").utf8ByteSize = 2 := by decide
  have hat : deepWorkspace.root.at? [("s" : RawPath)] = some (.dir [(longName 250, nested 17)]) := rfl
  rw [Workspace.listFiles_eq_ok hlocate hat, hstem, files_nested (by decide), List.map_nil,
    List.mergeSort_nil]

theorem parse_dotDot : Route.parse ".." = .ok ⟨false, [".."], false⟩ := rfl

theorem listFiles_looped : loopedWorkspace.listFiles "t/s" false = .ok ["a", "up/s/a"] := by
  have hstem : (Path.below "t/s" "").utf8ByteSize = 4 := by decide
  have hshort : ¬ Route.maxPathBytes < 4 + "up".utf8ByteSize ∧
      ¬ Route.maxPathBytes < 4 + "up".utf8ByteSize + 1 + "s".utf8ByteSize ∧
      ¬ Route.maxPathBytes < 4 + "up".utf8ByteSize + 1 + "s".utf8ByteSize + 1 + "up".utf8ByteSize := by
    decide
  have hvisible : ∀ name ∈ ["a", "up", "s"], Path.isHidden name = false := by decide
  have hpaths : loopedWorkspace.root.files false 40 ["t", "s"] [["t", "s"]] 4
      [("a", .file .empty), ("up", .link "..")] = ([["a"], ["up", "s", "a"]] : List (List RawPath)) := by
    simp [loopedWorkspace, Node.files_cons, Node.files_nil, Node.visit, Node.Visit.paths, hshort,
      hvisible, Node.files.linked, parse_dotDot, Route.start, Route.steps, Node.follow, Node.at?]
  have hat : loopedWorkspace.root.at? ["t", "s"] =
      some (.dir [("a", .file .empty), ("up", .link "..")]) := rfl
  have hlisting : ([["a"], ["up", "s", "a"]] : List (List RawPath)).map Path.listed = ["a", "up/s/a"] := by
    decide +kernel
  rw [Workspace.listFiles_eq_ok locate_looped hat, hstem, hpaths, hlisting, List.mergeSort_of_pairwise (by decide)]

theorem placeOf_looped : loopedWorkspace.placeOf "t/s/up/s" = some ([("t" : RawPath), "s"]) := by
  have hroute : Route.parse "t/s/up/s" = .ok ⟨false, ["t", "s", "up", "s"], false⟩ := rfl
  have hplain : ∀ name ∈ [("t" : RawPath), "s", "up"], Node.IsPlain name := by
    have hnames : ∀ name ∈ [("t" : RawPath), "s", "up"], IsEntryName name := by decide
    exact fun name hname => (hnames name hname).toIsPlain
  have hs : loopedWorkspace.root.Leads 39 ["t"] ["s"] ["t", "s"] 39 :=
    .down rfl (hplain "s" (by decide)) rfl (fun _ => Node.Part.noConfusion) (.here _ _)
  have hup : loopedWorkspace.root.Leads 40 ["t", "s"] ["up", "s"] ["t", "s"] 39 :=
    .link rfl (hplain "up" (by decide)) rfl parse_dotDot (.up rfl hs)
  have hlocate : loopedWorkspace.locate "t/s/up/s" = .ok ⟨["t", "s"], 39, by decide⟩ := by
    rw [Workspace.locate, hroute]
    refine Node.follow_eq_ok_iff.mpr ?_
    exact .down rfl (hplain "t" (by decide)) rfl (fun _ => Node.Part.noConfusion)
      (.down rfl (hplain "s" (by decide)) rfl (fun _ => Node.Part.noConfusion) hup)
  exact Workspace.placeOf_eq hlocate

/-- A name that begins with a dot but is no text. -/
def strayName : RawPath :=
  ⟨[0x2E, 0xFF, 0x61]⟩

theorem strayName_shown : strayName.text? = none ∧ Path.listed [strayName] = ".\uFFFDa" := by
  decide +kernel

def strayWorkspace : Workspace :=
  ⟨.dir [("s", .dir [(strayName, .file .empty)])], []⟩

theorem listFiles_stray : strayWorkspace.listFiles "s" false = .ok [".\uFFFDa"] := by
  have hlocate : strayWorkspace.locate "s" = .ok ⟨["s"], 40, Nat.le_refl 40⟩ :=
    Workspace.locate_single (by decide)
  have hstem : (Path.below "s" "").utf8ByteSize = 2 := by decide
  have hat : strayWorkspace.root.at? [("s" : RawPath)] = some (.dir [(strayName, .file .empty)]) := rfl
  have hvisible : isHidden strayName = false := by
    rw [isHidden, strayName_shown.1]
    rfl
  have hpaths : strayWorkspace.root.files false 40 ["s"] [["s"]] 2 [(strayName, .file .empty)] = [[strayName]] := by
    simp [Node.files_cons, Node.files_nil, Node.visit, Node.Visit.paths, hvisible]
  rw [Workspace.listFiles_eq_ok hlocate hat, hstem, hpaths, List.map_singleton, strayName_shown.2,
    List.mergeSort_singleton]

/-- Below a link back out of it, a source directory is walked again: that it is its own ancestor there
is seen only of links. A file whose directory has too long a path is not found. And a name that is no
text is not hidden and shows as another. -/
theorem listFiles_reenters : loopedWorkspace.listFiles "t/s" false = .ok ["a", "up/s/a"] ∧
    loopedWorkspace.placeOf "t/s/up/s" = loopedWorkspace.placeOf "t/s" ∧
    deepWorkspace.root.at? (("s" : RawPath) :: List.replicate 18 (longName 250)) = some (.file .empty) ∧
    deepWorkspace.listFiles "s" false = .ok [] ∧
    strayWorkspace.listFiles "s" false = .ok [".\uFFFDa"] :=
  ⟨listFiles_looped, placeOf_looped.trans (Workspace.placeOf_eq locate_looped).symm, at?_deep,
    listFiles_deep, listFiles_stray⟩

end AssetPipeline
