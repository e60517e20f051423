import AssetPipeline.Proofs.Files.Reaching

/-! Writing a file. The path that is written to is followed to its end, links that name nothing included,
and the file is put there. From then on the path leads to the file, and no other path leads elsewhere
than before: one that led nowhere may lead to the file now. -/

namespace AssetPipeline

/-! ### Names on a path -/

/-- A plain name that a path holds can be a name on disk. -/
theorem Route.isEntryName_of_parse {path name : RawPath} {route : Route} (hparse : parse path = .ok route)
    (hmem : name ∈ route.names) (hplain : Node.IsPlain name) : IsEntryName name := by
  rw [parse] at hparse
  split_ifs at hparse with hnul hempty hlength
  cases hparse
  obtain ⟨hsegment, hne⟩ := List.mem_filter.mp hmem
  obtain ⟨piece, hpiece, rfl⟩ := List.mem_map.mp hsegment
  rw [Chars.splitOn_eq] at hpiece
  refine ⟨hplain, of_decide_eq_true hne, notMem_of_mem_splitOn hpiece, fun hzero => hnul ?_⟩
  exact List.contains_iff_mem.mpr ((infix_of_mem_splitOn hpiece).subset hzero)

namespace Node

variable {root before after node new : Node} {budget left : Nat} {here place place' parent : Location}
  {route : Route} {name : RawPath} {content : ByteArray} {steps : List RawPath}

/-! ### Where a file is written -/

/-- A file can be written at a location: nothing is there yet, or a file. -/
def Writable (root : Node) (place : Location) : Prop :=
  root.part? place = none ∨ ∃ content, root.part? place = some (.file content)

/-- Writing to a path puts a file at a location. -/
inductive Creates (root : Node) : Nat → Location → Route → Location → Prop
  | here {budget left : Nat} {here parent : Location} {route : Route} {name : RawPath}
      (hparent : root.Leads budget (route.start here) route.names.dropLast parent left)
      (hdir : root.part? parent = some .dir) (hname : route.names.getLast? = some name)
      (hfile : route.wantsDirectory = false) (hplain : IsPlain name)
      (hwritable : root.Writable (parent ++ [name])) : Creates root budget here route (parent ++ [name])
  | link {budget left : Nat} {here parent place : Location} {route route' : Route} {name target : RawPath}
      (hparent : root.Leads budget (route.start here) route.names.dropLast parent (left + 1))
      (hdir : root.part? parent = some .dir) (hname : route.names.getLast? = some name)
      (hfile : route.wantsDirectory = false) (hplain : IsPlain name)
      (hpart : root.part? (parent ++ [name]) = some (.link target))
      (hroute : Route.parse target = .ok route') (hrest : Creates root left parent route' place) :
      Creates root budget here route place

theorem creates_of_creationPlace (h : root.creationPlace budget here route = .ok place) :
    root.Creates budget here route place := by
  induction budget, here, route using creationPlace.induct generalizing place with
  | case1 budget here route ih =>
      rw [creationPlace] at h
      obtain ⟨⟨parent, left, hle⟩, hfollow, h⟩ := bind_eq_ok_iff.mp h
      have hparent := follow_eq_ok_iff.mp hfollow
      dsimp only at h hparent
      split at h
      · rename_i entries hat
        have hdir := part?_eq_dir_iff.mpr ⟨entries, hat⟩
        split at h
        · cases h
        · rename_i name hname
          split_ifs at h with hdots hlength
          simp only [not_or, Bool.not_eq_true] at hdots
          have hplain : IsPlain name := ⟨hdots.2.1, hdots.2.2, Nat.not_lt.mp hlength⟩
          have hpart : root.part? (parent ++ [name]) = (entries.lookup name).map part := by
            rw [part?, at?_concat hat]
          cases hlookup : entries.lookup name with
          | none =>
              rw [hlookup] at h hpart
              cases h
              exact .here hparent hdir hname hdots.1 hplain (.inl hpart)
          | some node =>
              rw [hlookup] at h hpart
              cases node with
              | dir below => cases h
              | file content =>
                  cases h
                  exact .here hparent hdir hname hdots.1 hplain (.inr ⟨content, hpart⟩)
              | link target =>
                  cases left with
                  | zero => cases h
                  | succ left =>
                      obtain ⟨route', hroute, h⟩ := bind_eq_ok_iff.mp h
                      exact .link hparent hdir hname hdots.1 hplain hpart hroute
                        (ih parent left hle route' h)
      · cases h

namespace Creates

theorem creationPlace (h : root.Creates budget here route place) :
    root.creationPlace budget here route = .ok place := by
  induction h with
  | here hparent hdir hname hfile hplain hwritable =>
      obtain ⟨hle, hfollow⟩ := hparent.follow
      obtain ⟨entries, hat⟩ := part?_eq_dir_iff.mp hdir
      rw [Writable, part?, at?_concat hat] at hwritable
      rw [Node.creationPlace, hfollow]
      refine bind_eq_ok_iff.mpr ⟨_, rfl, ?_⟩
      simp only [hat, hname, hfile, hplain.ne_here, hplain.ne_up, Nat.not_lt.mpr hplain.length_le,
        Bool.false_eq_true, or_self, if_false]
      rcases hwritable with hnone | ⟨content, hcontent⟩
      · rw [Option.map_eq_none_iff.mp hnone]
      · obtain ⟨node, hlookup, hnode⟩ := Option.map_eq_some_iff.mp hcontent
        rw [hlookup]
        cases node <;> cases hnode
        rfl
  | link hparent hdir hname hfile hplain hpart hroute hrest ih =>
      obtain ⟨hle, hfollow⟩ := hparent.follow
      obtain ⟨entries, hat⟩ := part?_eq_dir_iff.mp hdir
      rw [part?_eq_link_iff, at?_concat hat] at hpart
      rw [Node.creationPlace, hfollow]
      refine bind_eq_ok_iff.mpr ⟨_, rfl, ?_⟩
      simp only [hat, hname, hfile, hplain.ne_here, hplain.ne_up, Nat.not_lt.mpr hplain.length_le,
        Bool.false_eq_true, or_self, if_false, hpart]
      exact bind_eq_ok_iff.mpr ⟨_, hroute, ih⟩

end Creates

theorem creationPlace_eq_ok_iff : root.creationPlace budget here route = .ok place ↔
    root.Creates budget here route place :=
  ⟨creates_of_creationPlace, Creates.creationPlace⟩

namespace Creates

theorem exists_entry {path : RawPath} (hparse : Route.parse path = .ok route)
    (h : root.Creates budget here route place) : ∃ parent name, place = parent ++ [name] ∧
      root.part? parent = some .dir ∧ IsEntryName name ∧ root.Writable place := by
  induction h generalizing path with
  | here hparent hdir hname hfile hplain hwritable =>
      exact ⟨_, _, rfl, hdir,
        Route.isEntryName_of_parse hparse (List.mem_of_getLast? hname) hplain, hwritable⟩
  | link hparent hdir hname hfile hplain hpart hroute hrest ih => exact ih hroute

theorem mono (hholds : after.Holds before) (hwritable : after.Writable place)
    (h : before.Creates budget here route place) : after.Creates budget here route place := by
  induction h with
  | here hparent hdir hname hfile hplain _ =>
      exact .here (hparent.mono hholds) (hholds.dir hdir) hname hfile hplain hwritable
  | link hparent hdir hname hfile hplain hpart hroute _ ih =>
      exact .link (hparent.mono hholds) (hholds.dir hdir) hname hfile hplain (hholds.link hpart) hroute
        (ih hwritable)

/-- Where a file was written, its path leads. -/
theorem leads (h : root.Creates budget here route place)
    (hplace : root.part? place = some (.file content)) :
    ∃ left, root.Leads budget (route.start here) route.steps place left := by
  induction h with
  | @here budget left here parent route name hparent hdir hname hfile hplain _ =>
      obtain ⟨front, hnames⟩ := List.getLast?_eq_some_iff.mp hname
      rw [hnames, List.dropLast_concat] at hparent
      rw [Route.steps, if_neg (by simp [hfile]), hnames]
      exact ⟨left, hparent.append
        (.down hdir hplain hplace (fun _ => Part.noConfusion) (.here _ _))⟩
  | @link budget left here parent place route route' name target hparent hdir hname hfile hplain hpart
      hroute _ ih =>
      obtain ⟨left', hrest⟩ := ih hplace
      obtain ⟨front, hnames⟩ := List.getLast?_eq_some_iff.mp hname
      rw [hnames, List.dropLast_concat] at hparent
      rw [Route.steps, if_neg (by simp [hfile]), hnames]
      exact ⟨left', hparent.append (.link hdir hplain hpart hroute (by rwa [List.append_nil]))⟩

end Creates

/-! ### The tree with the file -/

theorem map_fst_putEntry (name : RawPath) (new : Node) (entries : List (RawPath × Node)) :
    (putEntry name new entries).map (·.1) =
      if name ∈ entries.map (·.1) then entries.map (·.1) else entries.map (·.1) ++ [name] := by
  induction entries with
  | nil => rfl
  | cons entry entries ih =>
      obtain ⟨first, old⟩ := entry
      rw [putEntry]
      by_cases hfirst : first = name
      · rw [if_pos hfirst, if_pos (by simp [hfirst])]
        simp [hfirst]
      · have hname : name ∈ ((first, old) :: entries).map (·.1) ↔ name ∈ entries.map (·.1) := by
          simp [Ne.symm hfirst]
        rw [if_neg hfirst, List.map_cons, ih]
        simp only [hname]
        split_ifs <;> simp

theorem eq_or_mem_of_mem_putEntry {entries : List (RawPath × Node)} {entry : RawPath × Node}
    (h : entry ∈ putEntry name new entries) : entry = (name, new) ∨ entry ∈ entries := by
  induction entries with
  | nil => exact .inl (List.mem_singleton.mp h)
  | cons first entries ih =>
      rw [putEntry] at h
      split_ifs at h
      · exact (List.mem_cons.mp h).imp_right (List.mem_cons_of_mem _)
      · rcases List.mem_cons.mp h with rfl | h
        · exact .inr List.mem_cons_self
        · exact (ih h).imp_right (List.mem_cons_of_mem _)

theorem putEntry_of_lookup {entries : List (RawPath × Node)} (h : entries.lookup name = some node) :
    putEntry name node entries = entries := by
  induction entries with
  | nil => cases h
  | cons entry entries ih =>
      obtain ⟨first, old⟩ := entry
      rw [lookup_cons_ite] at h
      rw [putEntry]
      by_cases hfirst : first = name
      · rw [if_pos hfirst.symm] at h
        cases h
        rw [if_pos hfirst, hfirst]
      · rw [if_neg (Ne.symm hfirst)] at h
        rw [if_neg hfirst, ih h]

/-- Putting what is there already changes nothing. -/
theorem put_of_at? (h : root.at? place = some node) : root.put place node = root := by
  induction place generalizing root with
  | nil =>
      cases h
      rfl
  | cons name rest ih =>
      cases root with
      | file content => cases h
      | link target => cases h
      | dir entries =>
          obtain ⟨child, hchild, h⟩ := Option.bind_eq_some_iff.mp h
          rw [at?_put_dir hchild, ih h, putEntry_of_lookup hchild]

theorem OnDisk.put (hdisk : root.OnDisk) (hparent : root.part? parent = some .dir)
    (hname : IsEntryName name) (hnew : new.OnDisk) : (root.put (parent ++ [name]) new).OnDisk := by
  induction parent generalizing root with
  | nil =>
      obtain ⟨entries, hat⟩ := part?_eq_dir_iff.mp hparent
      cases hat
      obtain ⟨⟨hnodup, hnames⟩, hbelow⟩ := Each.dir_iff.mp hdisk
      rw [List.nil_append, put_singleton]
      refine .dir ?_ fun entry hentry => ?_
      · rw [map_fst_putEntry]
        split_ifs with hmem
        · exact ⟨hnodup, hnames⟩
        · refine ⟨List.nodup_append.mpr ⟨hnodup, List.nodup_singleton _, ?_⟩, ?_⟩
          · rintro other hother _ hnew rfl
            exact hmem (List.mem_singleton.mp hnew ▸ hother)
          · intro other hother
            rcases List.mem_append.mp hother with hother | hother
            · exact hnames other hother
            · rwa [List.mem_singleton.mp hother]
      · rcases eq_or_mem_of_mem_putEntry hentry with rfl | hentry
        · exact hnew
        · exact hbelow entry hentry
  | cons step parent ih =>
      cases hdisk with
      | file content => cases hparent
      | link target => cases hparent
      | @dir entries hnames hbelow =>
          cases hchild : entries.lookup step with
          | none => simp [part?, Node.at?, hchild] at hparent
          | some child =>
              have hmem := (mem_iff_lookup hnames.1).mpr hchild
              have hdir : child.part? parent = some .dir := by
                simpa [part?, Node.at?, hchild] using hparent
              rw [List.cons_append, at?_put_dir hchild]
              refine .dir ?_ fun entry hentry => ?_
              · rw [map_fst_putEntry, if_pos (List.mem_map_of_mem hmem)]
                exact hnames
              · rcases eq_or_mem_of_mem_putEntry hentry with rfl | hentry
                · exact ih (hbelow _ hmem) hdir
                · exact hbelow entry hentry

/-- Steps through the tree with the file lead to it, or where they led without it. -/
theorem Leads.of_update
    (hpart : after.part? = Function.update before.part? place (some (.file content)))
    (h : after.Leads budget here steps place' left) :
    place' = place ∨ before.Leads budget here steps place' left := by
  have hdir : ∀ {other}, after.part? other = some .dir → before.part? other = some .dir := by
    intro other hother
    rw [hpart] at hother
    by_cases heq : other = place
    · rw [heq, Function.update_self] at hother
      cases hother
    · rwa [Function.update_of_ne heq] at hother
  induction h with
  | here budget here => exact .inr (.here budget here)
  | stay hhere _ ih => exact ih.imp_right (.stay (hdir hhere))
  | up hhere _ ih => exact ih.imp_right (.up (hdir hhere))
  | @down budget here name rest _ left part hhere hplain hentry hlink hrest ih =>
      by_cases heq : here ++ [name] = place
      · have hfile : after.part? (here ++ [name]) = some (.file content) := by
          rw [hpart, heq, Function.update_self]
        -- No step leads on from a file.
        cases hrest with
        | here => exact .inl heq
        | stay hdir => cases hfile.symm.trans hdir
        | up hdir => cases hfile.symm.trans hdir
        | down hdir => cases hfile.symm.trans hdir
        | link hdir => cases hfile.symm.trans hdir
      · rw [hpart, Function.update_of_ne heq] at hentry
        exact ih.imp_right (.down (hdir hhere) hplain hentry hlink)
  | @link budget here name rest _ left target route hhere hplain hentry hroute _ ih =>
      refine ih.imp_right (.link (hdir hhere) hplain ?_ hroute)
      rw [hpart] at hentry
      by_cases heq : here ++ [name] = place
      · rw [heq, Function.update_self] at hentry
        cases hentry
      · rwa [Function.update_of_ne heq] at hentry

end Node

namespace Workspace

variable {w w' : Workspace} {path other : RawPath} {text : String} {place : Location} {content : ByteArray}

/-- A file is written at a location, and nothing else changes. -/
structure Writes (before after : Workspace) (place : Location) (content : ByteArray) : Prop where
  cwd_eq : after.cwd = before.cwd
  writable : before.root.Writable place
  part?_eq : after.root.part? = Function.update before.root.part? place (some (.file content))

namespace Writes

variable (h : w.Writes w' place content)
include h

theorem part?_self : w'.root.part? place = some (.file content) := by
  rw [h.part?_eq, Function.update_self]

theorem part?_eq_some {elsewhere : Location} {part : Node.Part}
    (hpart : w.root.part? elsewhere = some part) (hfile : ∀ content, part ≠ .file content) :
    w'.root.part? elsewhere = some part := by
  rw [h.part?_eq, Function.update_of_ne, hpart]
  rintro rfl
  rcases h.writable with hnone | ⟨content, hcontent⟩
  · rw [hpart] at hnone
    cases hnone
  · rw [hpart] at hcontent
    exact hfile content (Option.some.inj hcontent)

theorem holds : w'.root.Holds w.root where
  dir hpart := h.part?_eq_some hpart fun _ => Node.Part.noConfusion
  link hpart := h.part?_eq_some hpart fun _ => Node.Part.noConfusion
  file {elsewhere old} hpart := by
    by_cases heq : elsewhere = place
    · exact ⟨content, heq ▸ h.part?_self⟩
    · exact ⟨old, by rw [h.part?_eq, Function.update_of_ne heq, hpart]⟩

/-- If the file only replaces a file, the tree holds what it held. -/
theorem holds_symm (hfile : ∃ old, w.root.part? place = some (.file old)) : w.root.Holds w'.root := by
  obtain ⟨old, hold⟩ := hfile
  have hpart : ∀ {elsewhere part}, w'.root.part? elsewhere = some part →
      elsewhere = place ∧ part = .file content ∨ w.root.part? elsewhere = some part := by
    intro elsewhere part hpart
    rw [h.part?_eq] at hpart
    by_cases heq : elsewhere = place
    · rw [heq, Function.update_self] at hpart
      exact .inl ⟨heq, (Option.some.inj hpart).symm⟩
    · rw [Function.update_of_ne heq] at hpart
      exact .inr hpart
  constructor
  · intro elsewhere hdir
    rcases hpart hdir with ⟨-, hfile⟩ | hdir
    · cases hfile
    · exact hdir
  · intro elsewhere target hlink
    rcases hpart hlink with ⟨-, hfile⟩ | hlink
    · cases hfile
    · exact hlink
  · intro elsewhere other hother
    rcases hpart hother with ⟨rfl, -⟩ | hother
    · exact ⟨old, hold⟩
    · exact ⟨other, hother⟩

/-- A path that does not lead to the file leads where it led. -/
theorem locate_iff (hother : w'.placeOf other ≠ some place) {found : Found maxLinks} :
    w'.locate other = .ok found ↔ w.locate other = .ok found := by
  refine ⟨fun hlocate => ?_, locate_mono h.cwd_eq h.holds⟩
  have hne : found.place ≠ place := by
    rw [placeOf_eq hlocate] at hother
    exact fun heq => hother (congrArg some heq)
  obtain ⟨route, hroute, hlocate⟩ := bind_eq_ok_iff.mp hlocate
  rw [h.cwd_eq] at hlocate
  rw [locate, hroute]
  exact Node.follow_eq_ok_iff.mpr
    (((Node.follow_eq_ok_iff.mp hlocate).of_update h.part?_eq).resolve_left hne)

theorem readBytes_iff (hother : w'.placeOf other ≠ some place) {bytes : ByteArray} :
    w'.readBytes other = .ok bytes ↔ w.readBytes other = .ok bytes := by
  rw [readBytes_eq_ok_iff, readBytes_eq_ok_iff]
  refine exists_congr fun found => ?_
  rw [h.locate_iff hother, and_congr_right_iff]
  intro hlocate
  have hne : found.place ≠ place := by
    rw [placeOf_eq (locate_mono h.cwd_eq h.holds hlocate)] at hother
    exact fun heq => hother (congrArg some heq)
  rw [h.part?_eq, Function.update_of_ne hne]

end Writes

theorem readText_of_readBytes (h : w.readBytes path = .ok text.toUTF8) : w.readText path = .ok text := by
  have htext : String.fromUTF8? text.toUTF8 = some text := by
    rw [String.fromUTF8?, String.toUTF8_eq_toByteArray, dif_pos text.isValidUTF8]
    rfl
  rw [readText, h]
  refine bind_eq_ok_iff.mpr ⟨_, rfl, ?_⟩
  rw [htext]
  rfl

theorem readBytes_of_placeOf (hplace : w.placeOf path = some place)
    (hpart : w.root.part? place = some (.file content)) : w.readBytes path = .ok content := by
  rw [placeOf] at hplace
  cases hlocate : w.locate path with
  | error fault =>
      rw [hlocate] at hplace
      cases hplace
  | ok found =>
      rw [hlocate] at hplace
      cases hplace
      exact readBytes_eq_ok_iff.mpr ⟨found, hlocate, hpart⟩

theorem isFile_iff_readBytes : w.isFile path = true ↔ ∃ bytes, w.readBytes path = .ok bytes := by
  simp only [isFile_iff, readBytes_eq_ok_iff]
  exact ⟨fun ⟨found, bytes, h⟩ => ⟨bytes, found, h⟩, fun ⟨bytes, found, h⟩ => ⟨found, bytes, h⟩⟩

/-- What is written stands where its path leads, and writing it again changes nothing. -/
theorem writes_of_writeBytes (h : w.writeBytes path content = .ok w') :
    ∃ place, w.Writes w' place content ∧ (w.root.OnDisk → w'.root.OnDisk) ∧
      w'.placeOf path = some place ∧ w'.writeBytes path content = .ok w' := by
  obtain ⟨route, hroute, h⟩ := bind_eq_ok_iff.mp h
  obtain ⟨place, hplace, h⟩ := bind_eq_ok_iff.mp h
  cases h
  rw [Node.creationPlace_eq_ok_iff] at hplace
  obtain ⟨parent, name, rfl, hparent, hname, hwritable⟩ := hplace.exists_entry hroute
  have hold : w.root.part? (parent ++ [name]) ≠ some .dir := by
    rcases hwritable with hnone | ⟨old, hold⟩
    · rw [hnone]
      exact (Option.some_ne_none _).symm
    · rw [hold]
      exact fun heq => Node.Part.noConfusion (Option.some.inj heq)
  have hempty : ∀ rest : Location, rest ≠ [] → (Node.file content).part? rest = none := by
    intro rest hrest
    cases rest with
    | nil => exact absurd rfl hrest
    | cons first rest => rfl
  have hwrites : w.Writes { w with root := w.root.put (parent ++ [name]) (.file content) }
      (parent ++ [name]) content := ⟨rfl, hwritable, Node.part?_put hparent hold hempty⟩
  have hcreates := hplace.mono hwrites.holds (.inr ⟨content, hwrites.part?_self⟩)
  obtain ⟨left, hleads⟩ := hcreates.leads hwrites.part?_self
  obtain ⟨hle, hfollow⟩ := hleads.follow
  refine ⟨_, hwrites, fun hdisk => hdisk.put hparent hname (.file content), ?_, ?_⟩
  · have hlocate : locate { w with root := w.root.put (parent ++ [name]) (.file content) } path =
        .ok ⟨parent ++ [name], left, hle⟩ := by
      rw [locate, hroute]
      exact hfollow
    exact placeOf_eq hlocate
  · rw [writeBytes, hroute]
    refine bind_eq_ok_iff.mpr ⟨_, rfl, bind_eq_ok_iff.mpr ⟨_, hcreates.creationPlace, ?_⟩⟩
    rw [Node.put_of_at? (Node.part?_eq_file_iff.mp hwrites.part?_self)]
    rfl

/-- Where a path leads somewhere, that is where it is written to. -/
theorem writes_of_placeOf (hplace : w.placeOf path = some place)
    (hwrite : w.writeBytes path content = .ok w') : w.Writes w' place content := by
  obtain ⟨place', hwrites, -, hplace', -⟩ := writes_of_writeBytes hwrite
  have hlater : w'.placeOf path = w.placeOf path := by
    refine placeOf_mono hwrites.cwd_eq hwrites.holds ?_
    cases hlocate : w.locate path with
    | ok found => rfl
    | error fault =>
        rw [placeOf, hlocate] at hplace
        cases hplace
  rw [hplace, hplace'] at hlater
  cases hlater
  exact hwrites

end Workspace

end AssetPipeline
