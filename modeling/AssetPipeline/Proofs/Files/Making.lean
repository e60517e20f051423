import AssetPipeline.FileList
import AssetPipeline.Proofs.Files.Writing

/-! Making directories, and files in them. Where a directory is made nothing was, so all that had a part in
the tree still has it. A directory that is there is not made again: what was made for a file once is there
when the file is written the next time, and then the file takes the place of itself. -/

namespace AssetPipeline

/-! ### Free places -/

theorem Path.ancestors_eq_cons {path : String} (h : path ≠ "") :
    ∃ parents, ancestors path = path :: parents := by
  rw [ancestors, ancestors.upwards, if_neg h]
  split <;> exact ⟨_, rfl⟩

namespace Node

variable {root : Node} {budget : Nat} {here place : Location} {route : Route}

theorem leads_of_freePlace (h : root.freePlace budget here route = .ok place) :
    ∃ parent left name, place = parent ++ [name] ∧
      root.Leads budget (route.start here) route.names.dropLast parent left ∧
      route.names.getLast? = some name ∧ IsPlain name ∧ root.part? parent = some .dir ∧
      root.part? place = none := by
  obtain ⟨⟨parent, left, hle⟩, hfollow, h⟩ := bind_eq_ok_iff.mp h
  dsimp only at h
  split at h
  · rename_i entries hat
    split at h
    · cases h
    · rename_i name hname
      split_ifs at h with hdots hlength hthere
      cases h
      obtain ⟨hhere, hup⟩ := not_or.mp hdots
      refine ⟨parent, left, name, rfl, follow_eq_ok_iff.mp hfollow, hname,
        ⟨hhere, hup, Nat.not_lt.mp hlength⟩, part?_eq_dir_iff.mpr ⟨entries, hat⟩, ?_⟩
      rw [part?_eq_none_iff, at?_concat hat]
      exact Option.not_isSome_iff_eq_none.mp hthere
  · cases h

theorem Leads.dir_of_cons {left : Nat} {name : RawPath} {rest : List RawPath}
    (h : root.Leads budget here (name :: rest) place left) : root.part? here = some .dir := by
  cases h with
  | stay hdir => exact hdir
  | up hdir => exact hdir
  | down hdir => exact hdir
  | link hdir => exact hdir

/-- A name that leads somewhere is taken. -/
theorem Leads.isSome_lookup {left : Nat} {name : RawPath} {entries : List (RawPath × Node)}
    (h : root.Leads budget here [name] place left) (hat : root.at? here = some (dir entries))
    (hdots : ¬ (name = "." ∨ name = "..")) : IsPlain name ∧ (entries.lookup name).isSome = true := by
  have htaken : ∀ {part}, root.part? (here ++ [name]) = some part → (entries.lookup name).isSome = true := by
    intro part hpart
    rw [part?, at?_concat hat] at hpart
    obtain ⟨node, hlookup, -⟩ := Option.map_eq_some_iff.mp hpart
    exact Option.isSome_iff_exists.mpr ⟨node, hlookup⟩
  cases h with
  | stay => exact absurd (.inl rfl) hdots
  | up => exact absurd (.inr rfl) hdots
  | down _ hplain hpart => exact ⟨hplain, htaken hpart⟩
  | link _ hplain hpart => exact ⟨hplain, htaken hpart⟩

/-- Where the names of a path lead to a directory, there is no place for a new one. -/
theorem freePlace_of_leads {left : Nat}
    (hnames : root.Leads budget (route.start here) route.names place left)
    (hdir : root.part? place = some .dir) : root.freePlace budget here route = .error .exists := by
  rcases List.eq_nil_or_concat route.names with hnil | ⟨front, name, hconcat⟩
  · rw [hnil] at hnames
    cases hnames
    obtain ⟨entries, hat⟩ := part?_eq_dir_iff.mp hdir
    rw [freePlace, hnil, List.dropLast_nil, follow]
    simp only [bind, Except.bind, hat, List.getLast?_nil]
  · rw [List.concat_eq_append] at hconcat
    rw [hconcat] at hnames
    obtain ⟨parent, left', hfront, hname⟩ := Leads.append_iff.mp hnames
    obtain ⟨entries, hat⟩ := part?_eq_dir_iff.mp hname.dir_of_cons
    obtain ⟨hle, hfollow⟩ := hfront.follow
    rw [freePlace, hconcat, List.dropLast_concat, List.getLast?_concat, hfollow]
    simp only [bind, Except.bind, hat]
    by_cases hdots : name = "." ∨ name = ".."
    · rw [if_pos hdots]
    · obtain ⟨hplain, htaken⟩ := hname.isSome_lookup hat hdots
      rw [if_neg hdots, if_neg (Nat.not_lt.mpr hplain.length_le), if_pos htaken]

end Node

/-! ### Directories that come -/

namespace Workspace

variable {w w' w'' : Workspace} {raw : RawPath} {path : String}

/-- From one workspace to the other, directories may be added where nothing was. -/
structure GainsDirectories (before after : Workspace) : Prop where
  cwd_eq : after.cwd = before.cwd
  part? : ∀ place, after.root.part? place = before.root.part? place ∨
    before.root.part? place = none ∧ after.root.part? place = some .dir

namespace GainsDirectories

theorem refl (w : Workspace) : w.GainsDirectories w :=
  ⟨rfl, fun _ => .inl rfl⟩

theorem trans (h : w.GainsDirectories w') (h' : w'.GainsDirectories w'') : w.GainsDirectories w'' := by
  refine ⟨h'.cwd_eq.trans h.cwd_eq, fun place => ?_⟩
  rcases h.part? place with hsame | ⟨hnone, hdir⟩ <;> rcases h'.part? place with hsame' | ⟨hnone', hdir'⟩
  · exact .inl (hsame'.trans hsame)
  · exact .inr ⟨hsame.symm.trans hnone', hdir'⟩
  · exact .inr ⟨hnone, hsame'.trans hdir⟩
  · exact .inr ⟨hnone, hdir'⟩

theorem part?_eq_some (h : w.GainsDirectories w') {place : Location} {part : Node.Part}
    (hpart : w.root.part? place = some part) : w'.root.part? place = some part := by
  rcases h.part? place with hsame | ⟨hnone, -⟩
  · exact hsame.trans hpart
  · rw [hpart] at hnone
    cases hnone

theorem holds (h : w.GainsDirectories w') : w'.root.Holds w.root where
  dir := h.part?_eq_some
  link := h.part?_eq_some
  file hpart := ⟨_, h.part?_eq_some hpart⟩

/-- The files are the same. -/
theorem at?_eq_file_iff (h : w.GainsDirectories w') {place : Location} {content : ByteArray} :
    w'.root.at? place = some (.file content) ↔ w.root.at? place = some (.file content) := by
  rw [← Node.part?_eq_file_iff, ← Node.part?_eq_file_iff]
  refine ⟨fun hpart => ?_, h.part?_eq_some⟩
  rcases h.part? place with hsame | ⟨-, hdir⟩
  · exact hsame.symm.trans hpart
  · rw [hdir] at hpart
    cases hpart

/-- What could be read still can, by the same path. -/
theorem readBytes (h : w.GainsDirectories w') {content : ByteArray}
    (hread : w.readBytes raw = .ok content) : w'.readBytes raw = .ok content := by
  obtain ⟨found, hlocate, hpart⟩ := readBytes_eq_ok_iff.mp hread
  exact readBytes_eq_ok_iff.mpr
    ⟨found, locate_mono h.cwd_eq h.holds hlocate, h.part?_eq_some hpart⟩

theorem readText (h : w.GainsDirectories w') {text : String} (hread : w.readText raw = .ok text) :
    w'.readText raw = .ok text := by
  obtain ⟨bytes, hbytes, htext⟩ := bind_eq_ok_iff.mp hread
  exact bind_eq_ok_iff.mpr ⟨bytes, h.readBytes hbytes, htext⟩

end GainsDirectories

/-- What holds of making one directory, and of what comes of nothing and of one after the other, holds of
making a directory with its parents. -/
theorem makeDirs_induction {R : Workspace → Workspace → Prop} (hrefl : ∀ w, R w w)
    (htrans : ∀ {w w' w''}, R w w' → R w' w'' → R w w'')
    (hmake : ∀ {w w' path}, w.makeDir path = .ok w' → R w w') (w : Workspace) (paths : List String) :
    R w (w.makeDirs paths).2 := by
  induction paths generalizing w with
  | nil => exact hrefl w
  | cons path parents ih =>
      rw [makeDirs]
      split
      · exact hmake ‹_›
      · have hparents := ih w
        split
        · rename_i heq
          rw [heq] at hparents
          exact hparents
        · rename_i heq
          rw [heq] at hparents
          split
          · exact htrans hparents (hmake ‹_›)
          · exact hparents
      · exact hrefl w

/-- A directory is made where nothing was. -/
theorem exists_of_makeDir (h : w.makeDir raw = .ok w') : ∃ route parent left name,
    Route.parse raw = .ok route ∧
      w.root.Leads maxLinks (route.start w.cwd) route.names.dropLast parent left ∧
      route.names.getLast? = some name ∧ IsEntryName name ∧ w.root.part? parent = some .dir ∧
      w.root.part? (parent ++ [name]) = none ∧
      w' = ⟨w.root.put (parent ++ [name]) (.dir []), w.cwd⟩ ∧
      w'.root.part? = Function.update w.root.part? (parent ++ [name]) (some .dir) := by
  obtain ⟨route, hroute, h⟩ := bind_eq_ok_iff.mp h
  obtain ⟨place, hplace, h⟩ := bind_eq_ok_iff.mp h
  cases h
  obtain ⟨parent, left, name, rfl, hleads, hname, hplain, hparent, hnone⟩ := Node.leads_of_freePlace hplace
  have hempty : ∀ rest : Location, rest ≠ [] → (Node.dir []).part? rest = none := by
    intro rest hrest
    cases rest with
    | nil => exact absurd rfl hrest
    | cons first rest => rfl
  have hentry := Route.isEntryName_of_parse hroute (List.mem_of_getLast? hname) hplain
  refine ⟨route, parent, left, name, hroute, hleads, hname, hentry, hparent, hnone, rfl, ?_⟩
  exact Node.part?_put hparent (by rw [hnone]; exact (Option.some_ne_none _).symm) hempty

theorem gainsDirectories_makeDir (h : w.makeDir raw = .ok w') : w.GainsDirectories w' := by
  obtain ⟨route, parent, left, name, -, -, -, -, -, hnone, rfl, hpart⟩ := exists_of_makeDir h
  refine ⟨rfl, fun other => ?_⟩
  rw [hpart]
  by_cases hother : other = parent ++ [name]
  · subst hother
    exact .inr ⟨hnone, Function.update_self ..⟩
  · exact .inl (Function.update_of_ne hother ..)

theorem gainsDirectories_makeDirs (w : Workspace) (paths : List String) :
    w.GainsDirectories (w.makeDirs paths).2 :=
  makeDirs_induction .refl (fun h h' => h.trans h') gainsDirectories_makeDir w paths

theorem onDisk_makeDirs (hdisk : w.root.OnDisk) (paths : List String) :
    (w.makeDirs paths).2.root.OnDisk := by
  refine makeDirs_induction (R := fun w w' => w.root.OnDisk → w'.root.OnDisk) (fun _ => id)
    (fun h h' => h' ∘ h) (fun h hdisk => ?_) w paths hdisk
  obtain ⟨route, parent, left, name, -, -, -, hname, hparent, -, rfl, -⟩ := exists_of_makeDir h
  exact hdisk.put hparent hname (.dir ⟨List.nodup_nil, List.forall_mem_nil _⟩ (List.forall_mem_nil _))

/-! ### Directories that are there -/

/-- What was made is a directory by its path. -/
theorem isDir_of_makeDir (h : w.makeDir raw = .ok w') : w'.isDir raw = true := by
  have hholds := (gainsDirectories_makeDir h).holds
  obtain ⟨route, parent, left, name, hroute, hleads, hname, hentry, hparent, -, rfl, hpart⟩ :=
    exists_of_makeDir h
  have hdir : (w.root.put (parent ++ [name]) (.dir [])).part? (parent ++ [name]) = some .dir := by
    rw [hpart, Function.update_self]
  obtain ⟨front, hnames⟩ := List.getLast?_eq_some_iff.mp hname
  rw [hnames, List.dropLast_concat] at hleads
  have hwhole := (hleads.mono hholds).append
    (.down (hholds.dir hparent) hentry.toIsPlain hdir (fun _ => Node.Part.noConfusion) (.here _ _))
  rw [← hnames] at hwhole
  have hsteps : (w.root.put (parent ++ [name]) (.dir [])).Leads maxLinks (route.start w.cwd) route.steps
      (parent ++ [name]) left := by
    rw [Route.steps]
    split_ifs
    · exact hwhole.append (.stay hdir (.here _ _))
    · exact hwhole
  obtain ⟨hle, hfollow⟩ := hsteps.follow
  refine isDir_iff.mpr ⟨⟨parent ++ [name], left, hle⟩, ?_, hdir⟩
  rw [locate, hroute]
  exact hfollow

/-- A directory that is there is not made again. -/
theorem makeDir_of_isDir (h : w.isDir raw = true) : w.makeDir raw = .error .exists := by
  obtain ⟨found, hlocate, hdir⟩ := isDir_iff.mp h
  obtain ⟨route, hroute, hnames⟩ := exists_route_of_locate hlocate
  rw [makeDir, hroute]
  exact bind_eq_error_iff.mpr (.inr ⟨_, rfl,
    bind_eq_error_iff.mpr (.inl (Node.freePlace_of_leads hnames hdir))⟩)

theorem makeDirs_of_isDir (h : w.isDir path = true) (parents : List String) :
    w.makeDirs (path :: parents) = (.ok (), w) := by
  rw [makeDirs, makeDir_of_isDir h]
  simp only [h, if_true]

theorem isDir_of_makeDirs {parents : List String} (h : w.makeDirs (path :: parents) = (.ok (), w')) :
    w'.isDir path = true := by
  have hthere : ∀ {w : Workspace} {fault},
      ((if w.isDir path then .ok () else .error fault : Except FileFault Unit), w) = (.ok (), w') →
        w'.isDir path = true := by
    intro w fault h
    split_ifs at h with hdir
    · cases h
      exact hdir
    · cases h
  rw [makeDirs] at h
  split at h
  · cases h
    exact isDir_of_makeDir ‹_›
  · split at h
    · cases h
    · split at h
      · cases h
        exact isDir_of_makeDir ‹_›
      · exact hthere h
  · exact hthere h

/-! ### Files with the directories that they are to lie in -/

section WriteIfChanged

variable {made : Workspace} {content : String} {written : Bool}

theorem writeIfChanged_eq_ok_iff : w.writeIfChanged path content = (.ok written, w') ↔
    written = false ∧ w' = w ∧ w.readText path = .ok content ∨
      written = true ∧ w.readText path ≠ .ok content ∧ ∃ made,
        writeIfChanged.makeParent w path = (.ok (), made) ∧
          made.writeBytes path content.toUTF8 = .ok w' := by
  have hread : (w.readText path).toOption = some content ↔ w.readText path = .ok content := by
    cases w.readText path <;> simp [Except.toOption]
  rw [writeIfChanged]
  by_cases hsame : w.readText path = .ok content
  · rw [if_pos (hread.mpr hsame)]
    constructor
    · intro h
      cases h
      exact .inl ⟨rfl, rfl, hsame⟩
    · rintro (⟨rfl, rfl, -⟩ | ⟨-, hne, -⟩)
      · rfl
      · exact absurd hsame hne
  · rw [if_neg fun h => hsame (hread.mp h)]
    constructor
    · intro h
      split at h
      · cases h
      · rename_i made hparent
        split at h <;> cases h
        exact .inr ⟨rfl, hsame, made, hparent, ‹_›⟩
    · rintro (⟨-, -, h⟩ | ⟨rfl, -, made, hparent, hwrite⟩)
      · exact absurd h hsame
      · rw [hparent]
        dsimp only
        rw [hwrite]

theorem makeParent_snd (w : Workspace) (path : String) : (writeIfChanged.makeParent w path).2 = w ∨
    ∃ paths, (writeIfChanged.makeParent w path).2 = (w.makeDirs paths).2 := by
  rw [writeIfChanged.makeParent]
  split
  · exact .inl rfl
  · exact .inl rfl
  · rename_i parent _ _
    refine .inr ⟨Path.ancestors parent, ?_⟩
    rw [← makeDirAll]
    split <;> rename_i heq <;> rw [heq]

theorem gainsDirectories_makeParent (w : Workspace) (path : String) :
    w.GainsDirectories (writeIfChanged.makeParent w path).2 := by
  rcases makeParent_snd w path with h | ⟨paths, h⟩ <;> rw [h]
  · exact .refl w
  · exact gainsDirectories_makeDirs w paths

theorem onDisk_makeParent (hdisk : w.root.OnDisk) (path : String) :
    (writeIfChanged.makeParent w path).2.root.OnDisk := by
  rcases makeParent_snd w path with h | ⟨paths, h⟩ <;> rw [h]
  · exact hdisk
  · exact onDisk_makeDirs hdisk paths

/-- Directories that were made for a file are not made again as long as they are there. -/
theorem makeParent_again (hmade : writeIfChanged.makeParent w path = (.ok (), made))
    (hcwd : w'.cwd = made.cwd) (hholds : w'.root.Holds made.root) :
    writeIfChanged.makeParent w' path = (.ok (), w') := by
  rw [writeIfChanged.makeParent] at hmade ⊢
  split at hmade
  · rfl
  · rfl
  · rename_i parent hempty _
    obtain ⟨parents, hancestors⟩ := Path.ancestors_eq_cons hempty
    rw [makeDirAll, hancestors] at hmade ⊢
    split at hmade
    · rename_i heq
      cases hmade
      rw [makeDirs_of_isDir (isDir_mono hcwd hholds (isDir_of_makeDirs heq))]
    · cases hmade

/-- A list that cannot be written leaves directories behind, as a failure to write it or to make its
directory. -/
theorem gainsDirectories_writeIfChanged {content : String} {failure : Failure}
    (h : w.writeIfChanged path content = (.error failure, w')) : w.GainsDirectories w' ∧
      ((∃ parent fault, failure = .createDirectory parent fault) ∨
        ∃ fault, failure = .writeFile path fault) := by
  have hmake := gainsDirectories_makeParent w path
  rw [writeIfChanged] at h
  split at h
  · cases h
  · cases hparent : writeIfChanged.makeParent w path with
    | mk made wMade =>
        rw [hparent] at h hmake
        cases made with
        | error failure' =>
            cases h
            refine ⟨hmake, .inl ?_⟩
            rw [writeIfChanged.makeParent] at hparent
            split at hparent
            · cases hparent
            · cases hparent
            · split at hparent <;> cases hparent
              exact ⟨_, _, rfl⟩
        | ok made =>
            dsimp only at h
            split at h <;> cases h
            exact ⟨hmake, .inr ⟨_, rfl⟩⟩

theorem onDisk_writeIfChanged (hdisk : w.root.OnDisk) (path content : String) :
    (w.writeIfChanged path content).2.root.OnDisk := by
  have hmade := onDisk_makeParent hdisk path
  rw [writeIfChanged]
  split
  · exact hdisk
  · split <;> rename_i hparent <;> rw [hparent] at hmade
    · exact hmade
    · split
      · rename_i hwrite
        obtain ⟨place, -, hwritten, -⟩ := writes_of_writeBytes hwrite
        exact hwritten hmade
      · exact hmade

/-- A file that is there and can be written once more, to where it lies. -/
structure Rewritable (w : Workspace) (path : String) : Prop where
  parent : writeIfChanged.makeParent w path = (.ok (), w)
  writes : ∀ content, ∃ place w', w.writeBytes path content = .ok w' ∧ w.Writes w' place content ∧
    ∃ old, w.root.part? place = some (.file old)

theorem rewritable_of_writeBytes {bytes : ByteArray}
    (hmade : writeIfChanged.makeParent w path = (.ok (), made))
    (hwrite : made.writeBytes path bytes = .ok w') : w'.Rewritable path := by
  obtain ⟨place, hwrites, -, hplace, hagain⟩ := writes_of_writeBytes hwrite
  refine ⟨makeParent_again hmade hwrites.cwd_eq hwrites.holds, fun content => ?_⟩
  obtain ⟨route, hroute, h⟩ := bind_eq_ok_iff.mp hagain
  obtain ⟨place', hplace', -⟩ := bind_eq_ok_iff.mp h
  have hcontent : w'.writeBytes path content = .ok { w' with root := w'.root.put place' (.file content) } :=
    bind_eq_ok_iff.mpr ⟨route, hroute, bind_eq_ok_iff.mpr ⟨place', hplace', rfl⟩⟩
  exact ⟨place, _, hcontent, writes_of_placeOf hplace hcontent, bytes, hwrites.part?_self⟩

/-- What is written to a file that is there leaves everything where it was. -/
theorem Rewritable.writeIfChanged (h : w.Rewritable path) (content : String) : ∃ written w',
    w.writeIfChanged path content = (.ok written, w') ∧ w'.readText path = .ok content ∧
      w'.cwd = w.cwd ∧ w'.root.Holds w.root ∧ w.root.Holds w'.root ∧ (w.root.OnDisk → w'.root.OnDisk) := by
  by_cases hsame : w.readText path = .ok content
  · exact ⟨false, w, writeIfChanged_eq_ok_iff.mpr (.inl ⟨rfl, rfl, hsame⟩), hsame, rfl, .refl _, .refl _, id⟩
  · obtain ⟨place, w', hwrite, hwrites, hfile⟩ := h.writes content.toUTF8
    obtain ⟨place', hwrites', hdisk, hplace, -⟩ := writes_of_writeBytes hwrite
    exact ⟨true, w', writeIfChanged_eq_ok_iff.mpr (.inr ⟨rfl, hsame, w, h.parent, hwrite⟩),
      readText_of_readBytes (readBytes_of_placeOf hplace hwrites'.part?_self), hwrites.cwd_eq,
      hwrites.holds, hwrites.holds_symm hfile, hdisk⟩

/-- What was to be written can be read. -/
theorem readText_of_writeIfChanged (h : w.writeIfChanged path content = (.ok written, w')) :
    w'.readText path = .ok content := by
  rcases writeIfChanged_eq_ok_iff.mp h with ⟨-, rfl, hread⟩ | ⟨-, -, made, -, hwrite⟩
  · exact hread
  · obtain ⟨place, hwrites, -, hplace, -⟩ := writes_of_writeBytes hwrite
    exact readText_of_readBytes (readBytes_of_placeOf hplace hwrites.part?_self)

end WriteIfChanged

end Workspace

end AssetPipeline
