import AssetPipeline.Files.Workspace
import AssetPipeline.Proofs.Outcome
import Mathlib.Logic.Function.Basic
import Mathlib.Data.List.Basic

/-! What stands where in a tree, and where a path leads. A tree is known by the part at each of its
locations: the bytes of a file, the target of a link, or the bare fact of a directory. A change of the
tree changes the part at one location, and a path leads where it did as long as it meets the same
parts. -/

namespace AssetPipeline.Node

variable {root before after new : Node} {place parent here : Location} {name : RawPath}

/-! ### Parts -/

/-- What stands at a location, without what stands below it. -/
inductive Part where
  | file (content : ByteArray)
  | dir
  | link (target : RawPath)

def part : Node → Part
  | file content => .file content
  | dir _ => .dir
  | link target => .link target

def part? (root : Node) (place : Location) : Option Part :=
  (root.at? place).map part

theorem map_part_eq_file_iff {node : Option Node} {content : ByteArray} :
    node.map part = some (.file content) ↔ node = some (file content) := by
  rw [Option.map_eq_some_iff]
  constructor
  · rintro ⟨node, rfl, hpart⟩
    cases node <;> cases hpart
    rfl
  · exact fun hat => ⟨_, hat, rfl⟩

theorem map_part_eq_link_iff {node : Option Node} {target : RawPath} :
    node.map part = some (.link target) ↔ node = some (link target) := by
  rw [Option.map_eq_some_iff]
  constructor
  · rintro ⟨node, rfl, hpart⟩
    cases node <;> cases hpart
    rfl
  · exact fun hat => ⟨_, hat, rfl⟩

theorem part?_eq_file_iff {content : ByteArray} :
    root.part? place = some (.file content) ↔ root.at? place = some (file content) :=
  map_part_eq_file_iff

theorem part?_eq_link_iff {target : RawPath} :
    root.part? place = some (.link target) ↔ root.at? place = some (link target) :=
  map_part_eq_link_iff

theorem part?_eq_dir_iff :
    root.part? place = some .dir ↔ ∃ entries, root.at? place = some (dir entries) := by
  rw [part?, Option.map_eq_some_iff]
  constructor
  · rintro ⟨node, hat, hpart⟩
    cases node <;> cases hpart
    exact ⟨_, hat⟩
  · rintro ⟨entries, hat⟩
    exact ⟨_, hat, rfl⟩

theorem part?_eq_none_iff : root.part? place = none ↔ root.at? place = none :=
  Option.map_eq_none_iff

theorem at?_append (root : Node) (place rest : Location) :
    root.at? (place ++ rest) = (root.at? place).bind (·.at? rest) := by
  induction place generalizing root with
  | nil => rfl
  | cons name place ih =>
      cases root with
      | file content => rfl
      | link target => rfl
      | dir entries =>
          rw [List.cons_append, Node.at?, Node.at?, Option.bind_assoc]
          congr 1
          funext child
          exact ih child

theorem at?_concat {entries : List (RawPath × Node)} (hat : root.at? here = some (dir entries)) :
    root.at? (here ++ [name]) = entries.lookup name := by
  rw [at?_append, hat]
  cases hlookup : entries.lookup name <;> simp [Node.at?, hlookup]

/-- Only a directory has something below it. -/
theorem part?_append (h : root.part? place ≠ some .dir) {rest : Location} (hrest : rest ≠ []) :
    root.part? (place ++ rest) = none := by
  rw [part?_eq_none_iff, at?_append]
  cases hat : root.at? place with
  | none => rfl
  | some node =>
      cases rest with
      | nil => exact absurd rfl hrest
      | cons name rest =>
          cases node with
          | file content => rfl
          | link target => rfl
          | dir entries => exact absurd (part?_eq_dir_iff.mpr ⟨entries, hat⟩) h

/-! ### A change at one location -/

theorem lookup_cons_ite (first other : RawPath) (node : Node) (entries : List (RawPath × Node)) :
    List.lookup other ((first, node) :: entries) =
      if other = first then some node else entries.lookup other := by
  by_cases h : other = first
  · rw [if_pos h, List.lookup_cons, beq_iff_eq.mpr h]
  · rw [if_neg h, List.lookup_cons, beq_eq_false_iff_ne.mpr h]

theorem lookup_putEntry (entries : List (RawPath × Node)) (other : RawPath) :
    (putEntry name new entries).lookup other =
      if other = name then some new else entries.lookup other := by
  induction entries with
  | nil => exact lookup_cons_ite _ _ _ _
  | cons entry entries ih =>
      obtain ⟨first, old⟩ := entry
      rw [putEntry]
      by_cases hfirst : first = name
      · rw [if_pos hfirst, lookup_cons_ite, lookup_cons_ite, hfirst]
        by_cases h : other = name
        · rw [if_pos h, if_pos h]
        · rw [if_neg h, if_neg h, if_neg h]
      · rw [if_neg hfirst, lookup_cons_ite, lookup_cons_ite, ih]
        by_cases h : other = name
        · rw [if_pos h, if_pos h, if_neg fun heq => hfirst (heq.symm.trans h)]
        · rw [if_neg h, if_neg h]

theorem at?_put_dir {entries : List (RawPath × Node)} {child : Node} {rest : Location}
    (hchild : entries.lookup name = some child) :
    (dir entries).put (name :: rest) new = dir (putEntry name (child.put rest new) entries) := by
  rw [put, hchild]

theorem put_singleton (entries : List (RawPath × Node)) :
    (dir entries).put [name] new = dir (putEntry name new entries) := by
  rw [put]
  cases entries.lookup name with
  | none => exact if_pos rfl
  | some child => rfl

theorem part?_cons_putEntry (entries : List (RawPath × Node)) (first : RawPath) (rest : Location) :
    (dir (putEntry name new entries)).part? (first :: rest) =
      if first = name then new.part? rest else (dir entries).part? (first :: rest) := by
  rw [part?, part?, part?, Node.at?, Node.at?, lookup_putEntry]
  by_cases h : first = name
  · rw [if_pos h, if_pos h, Option.bind_some]
  · rw [if_neg h, if_neg h]

/-- What has nothing below it, put where no directory stands, changes the part there and no other. -/
theorem part?_put (hparent : root.part? parent = some .dir)
    (hold : root.part? (parent ++ [name]) ≠ some .dir) (hnew : ∀ rest, rest ≠ [] → new.part? rest = none) :
    (root.put (parent ++ [name]) new).part? =
      Function.update root.part? (parent ++ [name]) (some new.part) := by
  funext place
  induction parent generalizing root place with
  | nil =>
      obtain ⟨entries, hat⟩ := part?_eq_dir_iff.mp hparent
      cases hat
      rw [List.nil_append, put_singleton]
      cases place with
      | nil => rfl
      | cons first rest =>
          rw [part?_cons_putEntry]
          by_cases hfirst : first = name
          · subst hfirst
            rw [if_pos rfl]
            by_cases hrest : rest = []
            · subst hrest
              rw [Function.update_self]
              rfl
            · rw [Function.update_of_ne (by simpa using hrest), hnew rest hrest]
              exact (part?_append hold hrest).symm
          · rw [if_neg hfirst, Function.update_of_ne (by simp [hfirst])]
  | cons step parent ih =>
      cases root with
      | file content => cases hparent
      | link target => cases hparent
      | dir entries =>
          cases hchild : entries.lookup step with
          | none => simp [part?, Node.at?, hchild] at hparent
          | some child =>
              have hbelow : ∀ rest, (dir entries).part? (step :: rest) = child.part? rest := by
                intro rest
                rw [part?, Node.at?, hchild, Option.bind_some, part?]
              rw [List.cons_append, hbelow] at hold
              rw [hbelow] at hparent
              rw [List.cons_append, at?_put_dir hchild]
              cases place with
              | nil => rfl
              | cons first rest =>
                  rw [part?_cons_putEntry]
                  by_cases hfirst : first = step
                  · subst hfirst
                    rw [if_pos rfl, ih hparent hold]
                    by_cases hrest : rest = parent ++ [name]
                    · rw [hrest, Function.update_self, Function.update_self]
                    · rw [Function.update_of_ne hrest, Function.update_of_ne (by simpa using hrest),
                        hbelow]
                  · rw [if_neg hfirst, Function.update_of_ne (by simp [hfirst])]

/-! ### Where a path leads -/

/-- A name that is looked up in a directory. -/
structure IsPlain (name : RawPath) : Prop where
  ne_here : name ≠ "."
  ne_up : name ≠ ".."
  length_le : name.size ≤ Route.maxNameBytes

/-- Steps from one location lead to another, and leave that many links to follow. -/
inductive Leads (root : Node) : Nat → Location → List RawPath → Location → Nat → Prop
  | here (budget : Nat) (here : Location) : Leads root budget here [] here budget
  | stay {budget here rest place left} (hdir : root.part? here = some .dir)
      (hrest : Leads root budget here rest place left) : Leads root budget here ("." :: rest) place left
  | up {budget here rest place left} (hdir : root.part? here = some .dir)
      (hrest : Leads root budget here.dropLast rest place left) :
      Leads root budget here (".." :: rest) place left
  | down {budget here name rest place left part} (hdir : root.part? here = some .dir)
      (hplain : IsPlain name) (hpart : root.part? (here ++ [name]) = some part)
      (hlink : ∀ target, part ≠ .link target)
      (hrest : Leads root budget (here ++ [name]) rest place left) :
      Leads root budget here (name :: rest) place left
  | link {budget here name rest place left target route} (hdir : root.part? here = some .dir)
      (hplain : IsPlain name) (hpart : root.part? (here ++ [name]) = some (.link target))
      (hroute : Route.parse target = .ok route)
      (hrest : Leads root budget (route.start here) (route.steps ++ rest) place left) :
      Leads root (budget + 1) here (name :: rest) place left

theorem leads_of_follow {budget : Nat} {steps : List RawPath} : ∀ {found : Found budget},
    root.follow budget here steps = .ok found → root.Leads budget here steps found.place found.left := by
  induction budget, here, steps using follow.induct root with
  | case1 budget here =>
      intro found h
      rw [follow] at h
      cases h
      exact .here budget here
  | case2 budget here rest entries hat ih =>
      intro found h
      rw [follow, hat] at h
      exact .stay (part?_eq_dir_iff.mpr ⟨entries, hat⟩) (ih h)
  | case3 budget here rest entries hat hne ih =>
      intro found h
      rw [follow, hat] at h
      exact .up (part?_eq_dir_iff.mpr ⟨entries, hat⟩) (ih h)
  | case4 budget here name rest entries hat hne hne' hlength =>
      intro found h
      rw [follow, hat] at h
      simp [hne, hne', hlength] at h
  | case5 budget here name rest entries hat hne hne' hlength hlookup =>
      intro found h
      rw [follow, hat] at h
      simp [hne, hne', hlength, hlookup] at h
  | case6 here name rest entries hat hne hne' hlength target hlookup =>
      intro found h
      rw [follow, hat] at h
      simp [hne, hne', hlength, hlookup] at h
  | case7 here name rest entries hat hne hne' hlength target hlookup budget ih =>
      intro found h
      rw [follow, hat] at h
      simp only [hne, hne', hlength, hlookup, if_false] at h
      obtain ⟨route, hroute, h⟩ := bind_eq_ok_iff.mp h
      obtain ⟨found', hfollow, h⟩ := bind_eq_ok_iff.mp h
      cases h
      refine .link (part?_eq_dir_iff.mpr ⟨entries, hat⟩) ⟨hne, hne', Nat.not_lt.mp hlength⟩ ?_ hroute
        (ih route hfollow)
      rw [part?_eq_link_iff, at?_concat hat, hlookup]
  | case8 budget here name rest entries hat hne hne' hlength node hnode hlookup ih =>
      intro found h
      rw [follow, hat] at h
      have hpart : root.part? (here ++ [name]) = some node.part := by
        rw [part?, at?_concat hat, hlookup, Option.map_some]
      refine .down (part?_eq_dir_iff.mpr ⟨entries, hat⟩) ⟨hne, hne', Nat.not_lt.mp hlength⟩ hpart ?_ (ih ?_)
      · intro target heq
        cases node <;> cases heq
        exact hnode _ rfl
      · cases node with
        | link target => exact absurd rfl (hnode target)
        | file content => simpa only [hne, hne', hlength, hlookup, if_false] using h
        | dir below => simpa only [hne, hne', hlength, hlookup, if_false] using h
  | case9 budget here name rest hat =>
      intro found h
      rw [follow] at h
      split at h
      · exact absurd ‹_› (hat _)
      · cases h

/-- What a derivation says is what is found. -/
theorem Leads.follow {budget left : Nat} {steps : List RawPath}
    (h : root.Leads budget here steps place left) :
    ∃ hle, root.follow budget here steps = .ok ⟨place, left, hle⟩ := by
  induction h with
  | here budget here =>
      rw [Node.follow]
      exact ⟨Nat.le_refl _, rfl⟩
  | stay hdir hrest ih =>
      obtain ⟨entries, hat⟩ := part?_eq_dir_iff.mp hdir
      rw [Node.follow, hat]
      exact ih
  | up hdir hrest ih =>
      obtain ⟨entries, hat⟩ := part?_eq_dir_iff.mp hdir
      rw [Node.follow, hat]
      exact ih
  | down hdir hplain hpart hlink hrest ih =>
      obtain ⟨entries, hat⟩ := part?_eq_dir_iff.mp hdir
      rw [part?, at?_concat hat, Option.map_eq_some_iff] at hpart
      obtain ⟨node, hlookup, rfl⟩ := hpart
      rw [Node.follow, hat]
      simp only [hplain.ne_here, hplain.ne_up, Nat.not_lt.mpr hplain.length_le, hlookup, if_false]
      cases node with
      | link target => exact absurd rfl (hlink target)
      | file content => exact ih
      | dir below => exact ih
  | link hdir hplain hpart hroute hrest ih =>
      obtain ⟨entries, hat⟩ := part?_eq_dir_iff.mp hdir
      rw [part?_eq_link_iff, at?_concat hat] at hpart
      obtain ⟨hle, hfollow⟩ := ih
      rw [Node.follow, hat]
      simp only [hplain.ne_here, hplain.ne_up, Nat.not_lt.mpr hplain.length_le, hpart, if_false]
      refine ⟨Nat.le_succ_of_le hle, bind_eq_ok_iff.mpr ⟨_, hroute, ?_⟩⟩
      exact bind_eq_ok_iff.mpr ⟨_, hfollow, rfl⟩

theorem follow_eq_ok_iff {budget : Nat} {steps : List RawPath} {found : Found budget} :
    root.follow budget here steps = .ok found ↔
      root.Leads budget here steps found.place found.left := by
  refine ⟨leads_of_follow, fun h => ?_⟩
  obtain ⟨hle, hfollow⟩ := h.follow
  exact hfollow

namespace Leads

variable {budget left left' : Nat} {steps rest : List RawPath} {place' : Location}

theorem left_le (h : root.Leads budget here steps place left) : left ≤ budget :=
  h.follow.1

/-- Steps lead to one location at most. -/
theorem unique (h : root.Leads budget here steps place left)
    (h' : root.Leads budget here steps place' left') : place' = place ∧ left' = left := by
  obtain ⟨_, hfollow⟩ := h.follow
  obtain ⟨_, hfollow'⟩ := h'.follow
  rw [hfollow] at hfollow'
  cases hfollow'
  exact ⟨rfl, rfl⟩

theorem append (h : root.Leads budget here steps place left)
    (hrest : root.Leads left place rest place' left') :
    root.Leads budget here (steps ++ rest) place' left' := by
  induction h with
  | here budget here => exact hrest
  | stay hdir _ ih => exact .stay hdir (ih hrest)
  | up hdir _ ih => exact .up hdir (ih hrest)
  | down hdir hplain hpart hlink _ ih => exact .down hdir hplain hpart hlink (ih hrest)
  | link hdir hplain hpart hroute _ ih =>
      have happended := ih hrest
      rw [List.append_assoc] at happended
      exact .link hdir hplain hpart hroute happended

theorem append_iff : root.Leads budget here (steps ++ rest) place' left' ↔
    ∃ place left, root.Leads budget here steps place left ∧ root.Leads left place rest place' left' := by
  refine ⟨fun h => ?_, fun ⟨place, left, h, hrest⟩ => h.append hrest⟩
  generalize hall : steps ++ rest = all at h
  induction h generalizing steps with
  | here budget here =>
      obtain ⟨rfl, rfl⟩ := List.append_eq_nil_iff.mp hall
      exact ⟨here, budget, .here _ _, .here _ _⟩
  | @stay budget here all place left hdir h ih =>
      rcases List.append_eq_cons_iff.mp hall with ⟨rfl, rfl⟩ | ⟨steps, rfl, rfl⟩
      · exact ⟨here, budget, .here _ _, .stay hdir h⟩
      · obtain ⟨place, left, hsteps, hrest⟩ := ih rfl
        exact ⟨place, left, .stay hdir hsteps, hrest⟩
  | @up budget here all place left hdir h ih =>
      rcases List.append_eq_cons_iff.mp hall with ⟨rfl, rfl⟩ | ⟨steps, rfl, rfl⟩
      · exact ⟨here, budget, .here _ _, .up hdir h⟩
      · obtain ⟨place, left, hsteps, hrest⟩ := ih rfl
        exact ⟨place, left, .up hdir hsteps, hrest⟩
  | @down budget here name all place left part hdir hplain hpart hlink h ih =>
      rcases List.append_eq_cons_iff.mp hall with ⟨rfl, rfl⟩ | ⟨steps, rfl, rfl⟩
      · exact ⟨here, budget, .here _ _, .down hdir hplain hpart hlink h⟩
      · obtain ⟨place, left, hsteps, hrest⟩ := ih rfl
        exact ⟨place, left, .down hdir hplain hpart hlink hsteps, hrest⟩
  | @link budget here name all place left target route hdir hplain hpart hroute h ih =>
      rcases List.append_eq_cons_iff.mp hall with ⟨rfl, rfl⟩ | ⟨steps, rfl, rfl⟩
      · exact ⟨here, budget + 1, .here _ _, .link hdir hplain hpart hroute h⟩
      · obtain ⟨place, left, hsteps, hrest⟩ := ih (List.append_assoc _ _ _)
        exact ⟨place, left, .link hdir hplain hpart hroute hsteps, hrest⟩

end Leads

/-- Whatever the one tree holds, the other holds at the same location, though a file may have other
bytes there. -/
structure Holds (after before : Node) : Prop where
  dir : ∀ {place}, before.part? place = some .dir → after.part? place = some .dir
  link : ∀ {place target}, before.part? place = some (.link target) →
    after.part? place = some (.link target)
  file : ∀ {place content}, before.part? place = some (.file content) →
    ∃ content', after.part? place = some (.file content')

namespace Holds

theorem of_part?_eq (h : after.part? = before.part?) : after.Holds before := by
  refine ⟨fun {place} hpart => ?_, fun {place target} hpart => ?_, fun {place content} hpart => ⟨content, ?_⟩⟩
  all_goals rw [h]; exact hpart

theorem refl (root : Node) : root.Holds root :=
  of_part?_eq rfl

theorem trans {mid : Node} (h : after.Holds mid) (h' : mid.Holds before) : after.Holds before where
  dir hpart := h.dir (h'.dir hpart)
  link hpart := h.link (h'.link hpart)
  file hpart := by
    obtain ⟨content, hmid⟩ := h'.file hpart
    exact h.file hmid

end Holds

/-- Steps lead where they led in a tree of which everything is still there. -/
theorem Leads.mono (hholds : after.Holds before) {budget left : Nat} {steps : List RawPath}
    (h : before.Leads budget here steps place left) : after.Leads budget here steps place left := by
  induction h with
  | here budget here => exact .here budget here
  | stay hdir _ ih => exact .stay (hholds.dir hdir) ih
  | up hdir _ ih => exact .up (hholds.dir hdir) ih
  | @down budget here name rest place left part hdir hplain hpart hlink _ ih =>
      cases part with
      | link target => exact absurd rfl (hlink target)
      | dir => exact .down (hholds.dir hdir) hplain (hholds.dir hpart) (fun _ => Part.noConfusion) ih
      | file content =>
          obtain ⟨content', hpart'⟩ := hholds.file hpart
          exact .down (hholds.dir hdir) hplain hpart' (fun _ => Part.noConfusion) ih
  | link hdir hplain hpart hroute _ ih =>
      exact .link (hholds.dir hdir) hplain (hholds.link hpart) hroute ih

end AssetPipeline.Node

/-! ### What a path names -/

namespace AssetPipeline.Workspace

variable {w : Workspace} {path : RawPath}

theorem locate_mono {before after : Workspace} (hcwd : after.cwd = before.cwd)
    (hholds : after.root.Holds before.root) {found : Found maxLinks}
    (hlocate : before.locate path = .ok found) : after.locate path = .ok found := by
  obtain ⟨route, hroute, hlocate⟩ := bind_eq_ok_iff.mp hlocate
  rw [locate, hroute, hcwd]
  exact Node.follow_eq_ok_iff.mpr ((Node.follow_eq_ok_iff.mp hlocate).mono hholds)

theorem node_eq_ok_iff {node : Node} : w.node path = .ok node ↔
    ∃ found, w.locate path = .ok found ∧ w.root.at? found.place = some node := by
  rw [Workspace.node, bind_eq_ok_iff]
  refine exists_congr fun found => and_congr_right fun _ => ?_
  cases w.root.at? found.place with
  | none => simp
  | some other =>
      constructor
      · intro h
        cases h
        rfl
      · intro h
        cases h
        rfl

theorem isDir_iff : w.isDir path = true ↔
    ∃ found, w.locate path = .ok found ∧ w.root.part? found.place = some .dir := by
  have hnode : w.isDir path = true ↔ ∃ entries, w.node path = .ok (.dir entries) := by
    rw [isDir]
    split <;> simp_all
  simp only [hnode, node_eq_ok_iff, Node.part?_eq_dir_iff]
  exact ⟨fun ⟨entries, found, h⟩ => ⟨found, h.1, entries, h.2⟩,
    fun ⟨found, h, entries, hat⟩ => ⟨entries, found, h, hat⟩⟩

theorem isFile_iff : w.isFile path = true ↔
    ∃ found content, w.locate path = .ok found ∧ w.root.part? found.place = some (.file content) := by
  have hnode : w.isFile path = true ↔ ∃ content, w.node path = .ok (.file content) := by
    rw [isFile]
    split <;> simp_all
  simp only [hnode, node_eq_ok_iff, Node.part?_eq_file_iff]
  exact ⟨fun ⟨content, found, h⟩ => ⟨found, content, h⟩, fun ⟨found, content, h⟩ => ⟨content, found, h⟩⟩

theorem readBytes_eq_ok_iff {content : ByteArray} : w.readBytes path = .ok content ↔
    ∃ found, w.locate path = .ok found ∧ w.root.part? found.place = some (.file content) := by
  have hnode : w.readBytes path = .ok content ↔ w.node path = .ok (.file content) := by
    rw [readBytes, bind_eq_ok_iff]
    constructor
    · rintro ⟨node, hnode, h⟩
      cases node <;> cases h
      exact hnode
    · exact fun h => ⟨_, h, rfl⟩
  simp only [hnode, node_eq_ok_iff, Node.part?_eq_file_iff]

end AssetPipeline.Workspace
