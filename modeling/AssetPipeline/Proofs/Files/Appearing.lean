import AssetPipeline.Proofs.Files.Naming
import AssetPipeline.Proofs.Files.Writing

/-! Files that appear. When a file is written, names may lead to a file that led to none before. Unless the
file that was written is where they lead, nothing on the way has changed: a name on the way to another file
stands for a directory, or for a link that leads past the new file. So they led to that file before. -/

namespace AssetPipeline.Workspace

variable {w w' : Workspace} {path name : RawPath} {names front rest : List RawPath} {place other other' : Location}
  {content : ByteArray} {found : Found maxLinks} {left : Nat}

/-! ### Where names lead -/

/-- Names lead from the directory that a path names to a location. -/
def LeadsTo (w : Workspace) (path : RawPath) (names : List RawPath) (place : Location) : Prop :=
  ∃ (found : Found maxLinks) (left : Nat), w.locate path = .ok found ∧
    w.root.Leads found.left found.place names place left

theorem LeadsTo.unique (h : w.LeadsTo path names place) (h' : w.LeadsTo path names other) :
    other = place := by
  obtain ⟨found, left, hlocate, hleads⟩ := h
  obtain ⟨found', left', hlocate', hleads'⟩ := h'
  cases hlocate.symm.trans hlocate'
  exact (hleads.unique hleads').1

theorem ReachesFile.exists_dir_at (h : w.ReachesFile path names) (hsplit : names = front ++ name :: rest) :
    ∃ found, w.locate (RawPath.descend path front) = .ok found ∧ w.root.part? found.place = some .dir := by
  obtain ⟨found, entries, hlocate, hat⟩ := exists_of_child? (h.entry front name rest hsplit)
  exact ⟨found, hlocate, Node.part?_eq_dir_iff.mpr ⟨entries, hat⟩⟩

/-- Where a name leads from the path of the names before it, all these names lead. -/
theorem ReachesFile.exists_leads (hdisk : w.root.OnDisk) (h : w.ReachesFile path names)
    (hsplit : names = front ++ name :: rest) (hlocate : w.locate (RawPath.descend path front) = .ok found)
    (hname : w.root.Leads found.left found.place [name] place left) :
    ∃ start, w.locate path = .ok start ∧ w.root.Leads start.left start.place (front ++ [name]) place left := by
  induction front using List.reverseRecOn generalizing name rest found place left with
  | nil => exact ⟨found, hlocate, hname⟩
  | append_singleton front last ih =>
      rw [List.append_assoc, List.singleton_append] at hsplit
      obtain ⟨found', hlocate', -⟩ := h.exists_dir_at hsplit
      have hlast := h.isEntryName hdisk last (by simp [hsplit])
      rw [RawPath.descend_concat] at hlocate
      obtain ⟨start, hstart, hfront⟩ := ih hsplit hlocate'
        ((locate_below hlocate' hlast).mp ⟨found.left_le, hlocate⟩).2
      exact ⟨start, hstart, hfront.append hname⟩

/-! ### Past the written file -/

section Written

variable (hwrites : w.Writes w' place content)
include hwrites

theorem Writes.placeOf_of_ne (hother : w'.placeOf path ≠ some place) : w.placeOf path = w'.placeOf path := by
  cases hlocate' : w'.locate path with
  | ok found => rw [placeOf_eq hlocate', placeOf_eq ((hwrites.locate_iff hother).mp hlocate')]
  | error fault' =>
      cases hlocate : w.locate path with
      | ok found => cases hlocate'.symm.trans ((hwrites.locate_iff hother).mpr hlocate)
      | error fault =>
          rw [placeOf, placeOf, hlocate, hlocate']
          rfl

theorem Writes.ne_of_dir (hdir : w'.root.part? other = some .dir) : other ≠ place := by
  rintro rfl
  cases hwrites.part?_self.symm.trans hdir

/-- A directory has under every name what it had there, but for the file itself. -/
theorem Writes.child?_part_eq (hlocate : w'.locate path = .ok found)
    (hdir : w'.root.part? found.place = some .dir) (hne : found.place ++ [name] ≠ place) :
    (w.child? path name).map Node.part = (w'.child? path name).map Node.part := by
  have hfound := hwrites.ne_of_dir hdir
  have hplace : w'.placeOf path ≠ some place := by
    rw [placeOf_eq hlocate]
    exact fun heq => hfound (Option.some.inj heq)
  have hlocate' := (hwrites.locate_iff hplace).mp hlocate
  have hdir' := hdir
  rw [hwrites.part?_eq, Function.update_of_ne hfound] at hdir'
  obtain ⟨entries, hat⟩ := Node.part?_eq_dir_iff.mp hdir
  obtain ⟨entries', hat'⟩ := Node.part?_eq_dir_iff.mp hdir'
  rw [child?_eq hlocate hat, child?_eq hlocate' hat', ← Node.at?_concat hat, ← Node.at?_concat hat']
  change w.root.part? _ = w'.root.part? _
  rw [hwrites.part?_eq, Function.update_of_ne hne]

variable (hdisk : w'.root.OnDisk) (hreaches : w'.ReachesFile path names)
  (hleads : w'.LeadsTo path names other) (hne : other ≠ place)
include hdisk hreaches hleads hne

/-- Names that do not lead to the written file do not meet it. -/
theorem ReachesFile.place_ne (hsplit : names = front ++ name :: rest)
    (hlocate : w'.locate (RawPath.descend path front) = .ok found)
    (hname : w'.root.Leads found.left found.place [name] other' left) : other' ≠ place := by
  rintro rfl
  obtain ⟨start, hstart, hfront⟩ := hreaches.exists_leads hdisk hsplit hlocate hname
  cases rest with
  | nil => exact hne (hleads.unique ⟨start, left, hstart, hsplit ▸ hfront⟩).symm
  | cons next rest =>
      obtain ⟨found', hlocate', hdir⟩ := hreaches.exists_dir_at
        (show names = (front ++ [name]) ++ next :: rest by simpa using hsplit)
      rw [RawPath.descend_concat] at hlocate'
      have hplain := hreaches.isEntryName hdisk name (by simp [hsplit])
      have hbelow := ((locate_below hlocate hplain).mp ⟨found'.left_le, hlocate'⟩).2
      exact hwrites.ne_of_dir hdir (hname.unique hbelow).1

/-- The path of some of the names leads past the written file, as far as it leads anywhere. -/
theorem ReachesFile.placeOf_ne (hsplit : names = front ++ name :: rest) :
    w'.placeOf (RawPath.descend path (front ++ [name])) ≠ some place := by
  intro heq
  obtain ⟨found, hlocate, -⟩ := hreaches.exists_dir_at hsplit
  rw [RawPath.descend_concat] at heq
  cases hlocate' : w'.locate (RawPath.below (RawPath.descend path front) name) with
  | error fault =>
      rw [placeOf, hlocate'] at heq
      cases heq
  | ok found' =>
      rw [placeOf_eq hlocate', Option.some.injEq] at heq
      have hplain := hreaches.isEntryName hdisk name (by simp [hsplit])
      exact hreaches.place_ne hwrites hdisk hleads hne hsplit hlocate
        ((locate_below hlocate hplain).mp ⟨found'.left_le, hlocate'⟩).2 heq

/-- What a name on the way stands for was there before. -/
theorem ReachesFile.child?_part_eq (hsplit : names = front ++ name :: rest) :
    (w.child? (RawPath.descend path front) name).map Node.part =
      (w'.child? (RawPath.descend path front) name).map Node.part := by
  obtain ⟨found, hlocate, hdir⟩ := hreaches.exists_dir_at hsplit
  refine hwrites.child?_part_eq hlocate hdir fun heq => ?_
  have hplain := hreaches.isEntryName hdisk name (by simp [hsplit])
  have hfile := hwrites.part?_self
  rw [← heq] at hfile
  exact hreaches.place_ne hwrites hdisk hleads hne hsplit hlocate
    (.down hdir hplain.toIsPlain hfile (fun _ => Node.Part.noConfusion) (.here _ _)) heq

/-- Names that lead to another file than the written one led to a file before. -/
theorem ReachesFile.of_writes : w.ReachesFile path names := by
  have hchild : ∀ front name rest, names = front ++ name :: rest →
      (w.child? (RawPath.descend path front) name).map Node.part =
        (w'.child? (RawPath.descend path front) name).map Node.part :=
    fun _ _ _ hsplit => hreaches.child?_part_eq hwrites hdisk hleads hne hsplit
  have hpast : ∀ front name rest, names = front ++ name :: rest →
      w'.placeOf (RawPath.descend path (front ++ [name])) ≠ some place :=
    fun _ _ _ hsplit => hreaches.placeOf_ne hwrites hdisk hleads hne hsplit
  refine ⟨hreaches.ne_nil, fun front name rest hsplit => ?_, fun front name hsplit => ?_, ?_⟩
  · rw [← Option.isSome_map, hchild front name rest hsplit, Option.isSome_map]
    exact hreaches.entry front name rest hsplit
  · have hsame := hchild front name [] hsplit
    rcases hreaches.file front name hsplit with ⟨content, hcontent⟩ | ⟨⟨target, htarget⟩, hfile⟩
    · refine .inl ⟨content, Node.map_part_eq_file_iff.mp ?_⟩
      rw [hsame, hcontent]
      rfl
    · refine .inr ⟨⟨target, Node.map_part_eq_link_iff.mp ?_⟩, ?_⟩
      · rw [hsame, htarget]
        rfl
      · obtain ⟨bytes, hread⟩ := isFile_iff_readBytes.mp hfile
        have hother := hpast front name [] hsplit
        rw [RawPath.descend_concat] at hother
        exact isFile_iff_readBytes.mpr ⟨bytes, (hwrites.readBytes_iff hother).mp hread⟩
  · rintro front name rest hsplit ⟨target, htarget⟩ outer houter
    have hlink : w'.child? (RawPath.descend path front) name = some (.link target) := by
      rw [← Node.map_part_eq_link_iff, ← hchild front name rest hsplit, htarget]
      rfl
    have houterPast : w'.placeOf (RawPath.descend path outer) ≠ some place := by
      obtain ⟨more, rfl⟩ := houter
      obtain ⟨next, after, hmore⟩ : ∃ next after, more ++ name :: rest = next :: after :=
        List.exists_cons_of_ne_nil (by simp)
      obtain ⟨found, hlocate, hdir⟩ := hreaches.exists_dir_at
        (show names = outer ++ next :: after by rw [hsplit, List.append_assoc, hmore])
      rw [placeOf_eq hlocate]
      exact fun heq => hwrites.ne_of_dir hdir (Option.some.inj heq)
    rw [hwrites.placeOf_of_ne (hpast front name rest hsplit), hwrites.placeOf_of_ne houterPast]
    exact hreaches.forward front name rest hsplit ⟨target, hlink⟩ outer houter

end Written

end AssetPipeline.Workspace
