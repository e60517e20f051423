import AssetPipeline.Proofs.Files.Lookup
import AssetPipeline.Proofs.Files.RawPath
import AssetPipeline.Proofs.Files.Walk

/-! Entries by their paths. A walk keeps the location it is at and the links it may still follow; it
finds with these just what the path of the entry leads to when it is looked up from the start. -/

namespace AssetPipeline

/-- A name as disks hold it. -/
structure IsEntryName (name : RawPath) : Prop extends Node.IsPlain name where
  ne_empty : name ≠ ""
  slash_notMem : RawPath.slash ∉ name.bytes
  nul_notMem : 0 ∉ name.bytes

instance (name : RawPath) : Decidable (IsEntryName name) :=
  decidable_of_iff ((name ≠ "." ∧ name ≠ ".." ∧ name.size ≤ Route.maxNameBytes) ∧
      name ≠ "" ∧ RawPath.slash ∉ name.bytes ∧ 0 ∉ name.bytes)
    ⟨fun ⟨⟨hhere, hup, hlength⟩, hempty, hslash, hnul⟩ =>
        ⟨⟨hhere, hup, hlength⟩, hempty, hslash, hnul⟩,
      fun h => ⟨⟨h.ne_here, h.ne_up, h.length_le⟩, h.ne_empty, h.slash_notMem, h.nul_notMem⟩⟩

/-- A tree as disks hold it: names in one directory differ, and each can be a name. -/
def Node.OnDisk (node : Node) : Prop :=
  node.Each fun names => names.Nodup ∧ ∀ name ∈ names, IsEntryName name

theorem IsEntryName.bytes_ne_nil {name : RawPath} (h : IsEntryName name) : name.bytes ≠ [] :=
  fun hnil => h.ne_empty (RawPath.eq_empty_iff.mpr hnil)

/-! ### The path of an entry -/

/-- The path of an entry of a directory, with one slash between them. -/
def RawPath.below (dir name : RawPath) : RawPath :=
  if dir.bytes = [] ∨ dir.bytes.getLast? = some slash then ⟨dir.bytes ++ name.bytes⟩
  else ⟨dir.bytes ++ slash :: name.bytes⟩

section Below

variable {path name : RawPath}

theorem RawPath.getLast?_ofString_iff {text : String} :
    (text : RawPath).bytes.getLast? = some slash ↔ text.toList.getLast? = some '/' := by
  rw [bytes_ofString]
  rcases List.eq_nil_or_concat text.toList with hnil | ⟨front, c, hconcat⟩
  · simp [hnil]
  · rw [hconcat, List.concat_eq_append, List.flatMap_append, List.flatMap_singleton,
      List.getLast?_append_of_ne_nil _ String.utf8EncodeChar_ne_nil, List.getLast?_concat, Option.some.injEq]
    constructor
    · intro h
      exact Char.toNat_inj.mp ((ascii_mem_utf8EncodeChar_iff (by decide)).mp (List.mem_of_getLast? h))
    · rintro rfl
      decide

theorem RawPath.ofString_below (dir name : String) : (Path.below dir name : RawPath) = below dir name := by
  have hempty : (dir : RawPath).bytes = [] ↔ dir = "" := by
    rw [← eq_empty_iff, ofString_inj]
  have hsingle : String.utf8EncodeChar '/' = [slash] := by decide
  rw [below, Path.below]
  simp only [hempty, getLast?_ofString_iff]
  split_ifs <;> ext1 <;> simp [bytes_ofString, hsingle]

theorem RawPath.exists_below (hpath : path ≠ "") (name : RawPath) :
    ∃ front, (below path name).bytes = front ++ slash :: name.bytes ∧
      (path.bytes = front ∨ path.bytes = front ++ [slash]) := by
  by_cases hslash : path.bytes.getLast? = some slash
  · obtain ⟨front, hfront⟩ := List.getLast?_eq_some_iff.mp hslash
    refine ⟨front, ?_, .inr hfront⟩
    rw [below, if_pos (.inr hslash), hfront, List.append_assoc]
    rfl
  · refine ⟨path.bytes, ?_, .inl rfl⟩
    rw [below, if_neg (not_or.mpr ⟨fun hnil => hpath (eq_empty_iff.mpr hnil), hslash⟩)]

theorem RawPath.size_below (path name : RawPath) : (below path name).size = (below path "").size + name.size := by
  have hempty : ("" : RawPath).bytes = [] := rfl
  rw [below, below]
  split_ifs <;> simp [size, hempty, Nat.add_assoc, Nat.add_comm 1]

theorem RawPath.size_below_below (hname : IsEntryName name) :
    (below (below path name) "").size = (below path name).size + 1 := by
  have happend : ∃ front, (below path name).bytes = front ++ name.bytes := by
    rw [below]
    split_ifs
    · exact ⟨_, rfl⟩
    · exact ⟨path.bytes ++ [slash], by simp⟩
  obtain ⟨front, hfront⟩ := happend
  have hlast : (below path name).bytes.getLast? ≠ some slash := by
    rw [hfront, List.getLast?_append_of_ne_nil _ hname.bytes_ne_nil]
    exact fun h => hname.slash_notMem (List.mem_of_getLast? h)
  have hempty : (below path name).bytes ≠ [] := by
    rw [hfront]
    exact List.append_ne_nil_of_right_ne_nil _ hname.bytes_ne_nil
  rw [below, if_neg (not_or.mpr ⟨hempty, hlast⟩), size, size, List.length_append]
  rfl

/-- A name is one segment. -/
theorem IsEntryName.segments_eq (hname : IsEntryName name) : name.segments = [name] := by
  rw [RawPath.segments, Chars.splitOn_eq, List.splitOn_eq_singleton hname.slash_notMem]
  rfl

theorem RawPath.segments_below (hpath : path ≠ "") (hname : IsEntryName name) :
    ∃ front, (below path name).segments = front ++ [name] ∧
      (path.segments = front ∨ path.segments = front ++ [("" : RawPath)]) := by
  obtain ⟨front, hbelow, hfront⟩ := exists_below hpath name
  refine ⟨(front.splitOn slash).map mk, ?_, hfront.imp ?_ ?_⟩
  · rw [segments, Chars.splitOn_eq, hbelow, List.splitOn_append_cons_self,
      List.splitOn_eq_singleton hname.slash_notMem, List.map_append]
    rfl
  · intro h
    rw [segments, Chars.splitOn_eq, h]
  · intro h
    rw [segments, Chars.splitOn_eq, h, List.splitOn_append_cons_self, List.map_append]
    rfl

theorem Route.parse_below {route : Route} (hparse : parse path = .ok route) (hname : IsEntryName name) :
    parse (path.below name) =
      if maxPathBytes < (path.below name).size then .error .nameTooLong
      else .ok ⟨route.absolute, route.names ++ [name], false⟩ := by
  rw [parse] at hparse
  split_ifs at hparse with hnul hempty hlength
  cases hparse
  obtain ⟨bytes, hbytes, hpath⟩ := RawPath.exists_below hempty name
  obtain ⟨front, hsegments, hfront⟩ := RawPath.segments_below hempty hname
  have hnul' : ¬ (path.below name).bytes.contains 0 = true := by
    rw [List.contains_iff_mem] at hnul ⊢
    rw [hbytes, List.mem_append, List.mem_cons]
    rintro (h | h | h)
    · rcases hpath with hpath | hpath <;> rw [hpath] at hnul
      · exact hnul h
      · exact hnul (List.mem_append_left _ h)
    · cases h
    · exact hname.nul_notMem h
  have hempty' : path.below name ≠ "" := by
    rw [Ne, RawPath.eq_empty_iff, hbytes]
    simp
  have hhead : (path.below name).bytes.head? = path.bytes.head? := by
    rw [hbytes]
    rcases hpath with hpath | hpath
    · rw [hpath]
      cases bytes with
      | nil => exact absurd (RawPath.eq_empty_iff.mpr hpath) hempty
      | cons b bytes => rfl
    · rw [hpath]
      cases bytes <;> rfl
  rw [parse, if_neg hnul', if_neg hempty', hsegments, hhead]
  dsimp only
  congr 3
  · rw [List.filter_append]
    rcases hfront with hfront | hfront <;> simp [hfront, hname.ne_empty]
  · simp [hname.ne_empty]

theorem Route.parse_name (hname : IsEntryName name) : parse name = .ok ⟨false, [name], false⟩ := by
  have hlength : ¬ maxPathBytes < name.size :=
    Nat.not_lt.mpr (Nat.le_trans hname.length_le (by decide))
  have hhead : name.bytes.head? ≠ some RawPath.slash :=
    fun h => hname.slash_notMem (List.mem_of_mem_head? h)
  rw [parse, if_neg (by simpa using hname.nul_notMem), if_neg hname.ne_empty, if_neg hlength,
    hname.segments_eq]
  simp [hname.ne_empty, hhead]

end Below

namespace Node

variable {root node : Node} {here place : Location} {budget left : Nat} {name target : RawPath}

theorem leads_singleton_iff (hplain : IsPlain name) : root.Leads budget here [name] place left ↔
    root.part? here = some .dir ∧
      ((∃ part, root.part? (here ++ [name]) = some part ∧ (∀ target, part ≠ .link target) ∧
          place = here ++ [name] ∧ left = budget) ∨
        ∃ target route budget', root.part? (here ++ [name]) = some (.link target) ∧
          Route.parse target = .ok route ∧ budget = budget' + 1 ∧
          root.Leads budget' (route.start here) route.steps place left) := by
  constructor
  · intro h
    cases h with
    | stay => exact absurd rfl hplain.ne_here
    | up => exact absurd rfl hplain.ne_up
    | down hdir _ hpart hlink hrest =>
        cases hrest
        exact ⟨hdir, .inl ⟨_, hpart, hlink, rfl, rfl⟩⟩
    | link hdir _ hpart hroute hrest =>
        rw [List.append_nil] at hrest
        exact ⟨hdir, .inr ⟨_, _, _, hpart, hroute, rfl, hrest⟩⟩
  · rintro ⟨hdir, ⟨part, hpart, hlink, rfl, rfl⟩ | ⟨target, route, budget', hpart, hroute, rfl, hrest⟩⟩
    · exact .down hdir hplain hpart hlink (.here _ _)
    · exact .link hdir hplain hpart hroute (by rwa [List.append_nil])

theorem Leads.of_stay (h : root.Leads budget here ["."] place left) : place = here ∧ left = budget := by
  generalize hstay : ("." : RawPath) = step at h
  cases h with
  | stay _ hrest =>
      cases hrest
      exact ⟨rfl, rfl⟩
  | up => exact absurd hstay (by decide)
  | down _ hplain => exact absurd hstay.symm hplain.ne_here
  | link _ hplain => exact absurd hstay.symm hplain.ne_here

/-- A link leads where the directory that holds it leads by its name. -/
theorem linked_iff (hplain : IsPlain name) (hdir : root.part? here = some .dir)
    (hpart : root.part? (here ++ [name]) = some (.link target)) :
    (∃ found, files.linked root budget here target = some found ∧ found.1.place = place ∧
      found.1.left = left) ↔ root.Leads budget here [name] place left := by
  rw [leads_singleton_iff hplain, files.linked.eq_def]
  constructor
  · rintro ⟨found, hfound, rfl, rfl⟩
    refine ⟨hdir, .inr ?_⟩
    split at hfound
    · cases hfound
    · rename_i budget'
      split at hfound
      · cases hfound
      · rename_i route hroute
        split at hfound
        · cases hfound
        · rename_i place left hle hfollow
          cases hfound
          exact ⟨target, route, budget', hpart, hroute, rfl, follow_eq_ok_iff.mp hfollow⟩
  · rintro ⟨-, ⟨part, hpart', hlink, -⟩ | ⟨target', route, budget', hpart', hroute, rfl, hleads⟩⟩
    · rw [hpart] at hpart'
      cases hpart'
      exact absurd rfl (hlink target)
    · rw [hpart] at hpart'
      cases hpart'
      obtain ⟨hle, hfollow⟩ := hleads.follow
      simp only [hroute, hfollow]
      exact ⟨_, rfl, rfl, rfl⟩

end Node

namespace Workspace

variable {w : Workspace} {path name : RawPath} {place : Location} {left : Nat}

/-- The names of a path lead to what it names; a slash at its end leads nowhere else. -/
theorem exists_route_of_locate {found : Found maxLinks} (hlocate : w.locate path = .ok found) :
    ∃ route, Route.parse path = .ok route ∧
      w.root.Leads maxLinks (route.start w.cwd) route.names found.place found.left := by
  obtain ⟨route, hparse, hfollow⟩ := bind_eq_ok_iff.mp hlocate
  refine ⟨route, hparse, ?_⟩
  rw [Node.follow_eq_ok_iff, Route.steps] at hfollow
  split_ifs at hfollow
  · obtain ⟨place, left, hnames, hstay⟩ := Node.Leads.append_iff.mp hfollow
    obtain ⟨rfl, rfl⟩ := hstay.of_stay
    exact hnames
  · exact hfollow

theorem locate_below {found : Found maxLinks} (hlocate : w.locate path = .ok found)
    (hname : IsEntryName name) :
    (∃ hle, w.locate (path.below name) = .ok ⟨place, left, hle⟩) ↔
      (path.below name).size ≤ Route.maxPathBytes ∧
        w.root.Leads found.left found.place [name] place left := by
  obtain ⟨route, hparse, hnames⟩ := exists_route_of_locate hlocate
  rw [locate, Route.parse_below hparse hname]
  by_cases hlength : Route.maxPathBytes < (path.below name).size
  · rw [if_pos hlength]
    constructor
    · rintro ⟨_, h⟩
      cases h
    · exact fun h => absurd h.1 (Nat.not_le.mpr hlength)
  · rw [if_neg hlength]
    change (∃ hle, w.root.follow maxLinks (route.start w.cwd) (route.names ++ [name]) =
      .ok ⟨place, left, hle⟩) ↔ _
    constructor
    · rintro ⟨hle, h⟩
      rw [Node.follow_eq_ok_iff] at h
      obtain ⟨place', left', hnames', hname'⟩ := Node.Leads.append_iff.mp h
      obtain ⟨rfl, rfl⟩ := hnames.unique hnames'
      exact ⟨Nat.not_lt.mp hlength, hname'⟩
    · rintro ⟨-, h⟩
      exact (hnames.append h).follow

/-- A directory at the top is found by its name. -/
theorem locate_single {below : List (RawPath × Node)} (hname : IsEntryName name) :
    (⟨.dir [(name, .dir below)], []⟩ : Workspace).locate name = .ok ⟨[name], maxLinks, Nat.le_refl _⟩ := by
  have hat : (Node.dir [(name, .dir below)]).at? [name] = some (.dir below) := by
    simp [Node.at?]
  rw [locate, Route.parse_name hname]
  exact Node.follow_eq_ok_iff.mpr
    (.down rfl hname.toIsPlain (Node.part?_eq_dir_iff.mpr ⟨below, hat⟩) (fun _ => Node.Part.noConfusion)
      (.here _ _))

section Visit

variable {found : Found maxLinks} {node : Node} {above : List Location} {below : List (RawPath × Node)}

theorem locate_below_of_long (hlocate : w.locate path = .ok found) (hname : IsEntryName name)
    (hlength : Route.maxPathBytes < (path.below name).size) :
    ∃ fault, w.locate (path.below name) = .error fault := by
  cases hbelow : w.locate (path.below name) with
  | error fault => exact ⟨fault, rfl⟩
  | ok found' =>
      exact absurd ((locate_below hlocate hname).mp ⟨_, hbelow⟩).1 (Nat.not_le.mpr hlength)

/-- What a walk does with a directory or a link is found by its path. -/
theorem visit_dir (hlocate : w.locate path = .ok found) (hname : IsEntryName name)
    (hdir : w.root.part? found.place = some .dir)
    (hat : w.root.at? (found.place ++ [name]) = some (.dir below)) :
    w.root.visit found.left found.place above (path.below name).size name (.dir below) =
      match w.locate (path.below name) with
      | .error _ => .skip
      | .ok found => .enter found.left found.place below := by
  have hleads : w.root.Leads found.left found.place [name] (found.place ++ [name]) found.left :=
    .down hdir hname.toIsPlain (Node.part?_eq_dir_iff.mpr ⟨below, hat⟩)
      (fun _ => Node.Part.noConfusion) (.here _ _)
  rw [Node.visit]
  by_cases hlength : Route.maxPathBytes < (path.below name).size
  · obtain ⟨fault, hbelow⟩ := locate_below_of_long hlocate hname hlength
    rw [if_pos hlength, hbelow]
  · obtain ⟨hle, hbelow⟩ := (locate_below hlocate hname).mpr ⟨Nat.not_lt.mp hlength, hleads⟩
    rw [if_neg hlength, hbelow]

theorem visit_link {target : RawPath} (hlocate : w.locate path = .ok found) (hname : IsEntryName name)
    (hdir : w.root.part? found.place = some .dir)
    (hat : w.root.at? (found.place ++ [name]) = some (.link target)) :
    w.root.visit found.left found.place above (path.below name).size name (.link target) =
      match w.locate (path.below name) with
      | .error _ => .skip
      | .ok found =>
        match w.root.at? found.place with
        | some (.file _) => .take
        | some (.dir below) =>
          if above.contains found.place then .skip else .enter found.left found.place below
        | _ => .skip := by
  have hlinked : ∀ {place left}, (∃ found', Node.files.linked w.root found.left found.place target =
      some found' ∧ found'.1.place = place ∧ found'.1.left = left) ↔
        w.root.Leads found.left found.place [name] place left :=
    Node.linked_iff hname.toIsPlain hdir (Node.part?_eq_link_iff.mpr hat)
  rw [Node.visit]
  by_cases hlength : Route.maxPathBytes < (path.below name).size
  · obtain ⟨fault, hbelow⟩ := locate_below_of_long hlocate hname hlength
    rw [if_pos hlength, hbelow]
  · rw [if_neg hlength]
    cases htarget : Node.files.linked w.root found.left found.place target with
    | none =>
        cases hbelow : w.locate (path.below name) with
        | error fault => rfl
        | ok found' =>
            obtain ⟨found'', hsome, -⟩ := hlinked.mpr ((locate_below hlocate hname).mp ⟨_, hbelow⟩).2
            rw [htarget] at hsome
            cases hsome
    | some found' =>
        have hleads := hlinked.mp ⟨found', htarget, rfl, rfl⟩
        obtain ⟨⟨place, left, _⟩, _⟩ := found'
        obtain ⟨hle, hbelow⟩ := (locate_below hlocate hname).mpr ⟨Nat.not_lt.mp hlength, hleads⟩
        exact hbelow ▸ rfl

theorem visit_eq_take_iff (hlocate : w.locate path = .ok found) (hname : IsEntryName name)
    (hdir : w.root.part? found.place = some .dir)
    (hat : w.root.at? (found.place ++ [name]) = some node) :
    w.root.visit found.left found.place above (path.below name).size name node = .take ↔
      (∃ content, node = .file content) ∨
        (∃ target, node = .link target) ∧ w.isFile (path.below name) = true := by
  cases node with
  | file content => simp [Node.visit]
  | dir below =>
      rw [visit_dir hlocate hname hdir hat]
      split <;> simp
  | link target =>
      rw [visit_link hlocate hname hdir hat, isFile_iff]
      cases hbelow : w.locate (path.below name) with
      | error fault => simp
      | ok found' =>
          simp only [Node.part?_eq_file_iff]
          cases hat' : w.root.at? found'.place with
          | none => simp [hat']
          | some target' =>
              cases target' with
              | file content => simp [hat']
              | link target' => simp [hat']
              | dir below =>
                  dsimp only
                  split_ifs <;> simp [hat']

theorem visit_eq_enter_iff (hlocate : w.locate path = .ok found) (hname : IsEntryName name)
    (hdir : w.root.part? found.place = some .dir)
    (hat : w.root.at? (found.place ++ [name]) = some node) :
    w.root.visit found.left found.place above (path.below name).size name node =
        .enter left place below ↔
      ∃ found', w.locate (path.below name) = .ok found' ∧ found'.place = place ∧
        found'.left = left ∧ w.root.at? place = some (.dir below) ∧
        ((∃ target, node = .link target) → place ∉ above) := by
  cases node with
  | file content =>
      refine iff_of_false Node.Visit.noConfusion ?_
      rintro ⟨⟨place', left', hle⟩, hbelow, rfl, rfl, hat', -⟩
      have hleads := ((locate_below hlocate hname).mp ⟨hle, hbelow⟩).2
      obtain ⟨-, h | ⟨target, route, budget, hpart, -⟩⟩ :=
        (Node.leads_singleton_iff hname.toIsPlain).mp hleads
      · obtain ⟨part, -, -, rfl, -⟩ := h
        rw [hat] at hat'
        cases hat'
      · rw [Node.part?_eq_link_iff, hat] at hpart
        cases hpart
  | dir inner =>
      have hleads : w.root.Leads found.left found.place [name] (found.place ++ [name]) found.left :=
        .down hdir hname.toIsPlain (Node.part?_eq_dir_iff.mpr ⟨inner, hat⟩)
          (fun _ => Node.Part.noConfusion) (.here _ _)
      rw [visit_dir hlocate hname hdir hat]
      cases hbelow : w.locate (path.below name) with
      | error fault => simp
      | ok found' =>
          have hfound' := ((locate_below hlocate hname).mp ⟨found'.left_le, hbelow⟩).2
          obtain ⟨hplace, hleft⟩ := hleads.unique hfound'
          constructor
          · intro h
            cases h
            exact ⟨found', rfl, rfl, rfl, hplace ▸ hat, fun ⟨_, h⟩ => by cases h⟩
          · rintro ⟨_, hfound, rfl, rfl, hat', -⟩
            cases hfound
            rw [hplace, hat] at hat'
            cases hat'
            rfl
  | link target =>
      rw [visit_link hlocate hname hdir hat]
      cases hbelow : w.locate (path.below name) with
      | error fault => simp
      | ok found' =>
          constructor
          · intro h
            dsimp only at h
            split at h
            · cases h
            · rename_i inner hat'
              split_ifs at h with habove
              cases h
              exact ⟨found', rfl, rfl, rfl, hat',
                fun _ hmem => habove (List.contains_iff_mem.mpr hmem)⟩
            · cases h
          · rintro ⟨_, hfound, rfl, rfl, hat', habove⟩
            cases hfound
            dsimp only
            rw [hat']
            exact if_neg fun hmem => habove ⟨target, rfl⟩ (List.contains_iff_mem.mp hmem)

end Visit

end Workspace

end AssetPipeline
