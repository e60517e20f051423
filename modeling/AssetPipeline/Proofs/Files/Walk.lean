import AssetPipeline.Files.Listing
import Mathlib.Data.List.Nodup

/-! Walks over a tree. A walk makes one of three things of an entry, whatever the entry is and however
it is reached: it skips it, takes it for a file, or goes on with the entries of a directory. All that
is proved of a walk is proved by one induction over these. -/

namespace AssetPipeline.Node

variable {P Q : List RawPath → Prop} {root node : Node} {entries : List (RawPath × Node)}

/-- The names of every directory in a tree satisfy `P`. -/
inductive Each (P : List RawPath → Prop) : Node → Prop
  | file (content : ByteArray) : Each P (.file content)
  | link (target : RawPath) : Each P (.link target)
  | dir {entries : List (RawPath × Node)} (names : P (entries.map (·.1)))
      (below : ∀ e ∈ entries, e.2.Each P) : Each P (.dir entries)

namespace Each

theorem imp (hPQ : ∀ names, P names → Q names) (h : node.Each P) : node.Each Q := by
  induction h with
  | file content => exact .file content
  | link target => exact .link target
  | dir names below ih => exact .dir (hPQ _ names) ih

@[simp] theorem file_iff {content : ByteArray} : (Node.file content).Each P ↔ True :=
  iff_true_intro (.file content)

@[simp] theorem link_iff {target : RawPath} : (Node.link target).Each P ↔ True :=
  iff_true_intro (.link target)

@[simp] theorem dir_iff :
    (Node.dir entries).Each P ↔ P (entries.map (·.1)) ∧ ∀ e ∈ entries, e.2.Each P := by
  constructor
  · rintro (_ | _ | ⟨names, below⟩)
    exact ⟨names, below⟩
  · exact fun h => .dir h.1 h.2

theorem at? (h : root.Each P) {place : Location} (hat : root.at? place = some node) : node.Each P := by
  induction place generalizing root with
  | nil =>
      cases hat
      exact h
  | cons name rest ih =>
      cases h with
      | file content => cases hat
      | link target => cases hat
      | dir names below =>
          obtain ⟨child, hchild, hat⟩ := Option.bind_eq_some_iff.mp hat
          obtain ⟨front, back, hentries, -⟩ := List.lookup_eq_some_iff.mp hchild
          refine ih (below (name, child) ?_) hat
          rw [hentries]
          exact List.mem_append_right _ List.mem_cons_self

end Each

/-! ### One entry -/

/-- What a walk does with an entry that it does not pass over as hidden. -/
inductive Visit where
  | skip
  | take
  /-- Go on with the entries of the directory at `place`. -/
  | enter (budget : Nat) (place : Location) (entries : List (RawPath × Node))

def visit (root : Node) (budget : Nat) (here : Location) (above : List Location) (reach : Nat)
    (name : RawPath) : Node → Visit
  | file _ => .take
  | dir below => if Route.maxPathBytes < reach then .skip else .enter budget (here ++ [name]) below
  | link target =>
      if Route.maxPathBytes < reach then .skip
      else
        match files.linked root budget here target with
        | none => .skip
        | some ⟨⟨place, left, _⟩, _⟩ =>
            match root.at? place with
            | some (file _) => .take
            | some (dir below) => if above.contains place then .skip else .enter left place below
            | _ => .skip

/-- The files that a visit finds, by those that are found in a directory. -/
def Visit.paths (name : RawPath)
    (found : Nat → Location → List (RawPath × Node) → List (List RawPath)) : Visit → List (List RawPath)
  | skip => []
  | take => [[name]]
  | enter budget place entries => (found budget place entries).map (name :: ·)

variable {hidden : Bool} {budget left reach stem : Nat} {here place : Location} {above : List Location}
  {name : RawPath} {below : List (RawPath × Node)}

theorem files_nil : root.files hidden budget here above stem [] = [] := by
  rw [files]

theorem files_cons : root.files hidden budget here above stem ((name, node) :: entries) =
    (if isHidden name ∧ ¬ hidden then []
      else (root.visit budget here above (stem + name.size) name node).paths name
        fun left place below =>
          root.files hidden left place (place :: above) (stem + name.size + 1) below) ++
      root.files hidden budget here above stem entries := by
  rw [files.eq_def]
  dsimp only
  congr 1
  by_cases hskip : isHidden name ∧ ¬ hidden
  · rw [if_pos hskip, if_pos hskip]
  · rw [if_neg hskip, if_neg hskip]
    cases node with
    | file content => rfl
    | dir below =>
        simp only [visit]
        split_ifs <;> rfl
    | link target =>
        dsimp only [visit]
        by_cases hreach : Route.maxPathBytes < stem + name.size
        · rw [if_pos hreach, if_pos hreach]
          rfl
        · rw [if_neg hreach, if_neg hreach]
          cases files.linked root budget here target with
          | none => rfl
          | some found =>
              obtain ⟨⟨place, left, hle⟩, hlt⟩ := found
              dsimp only
              cases root.at? place with
              | none => rfl
              | some target =>
                  cases target with
                  | file content => rfl
                  | link target => rfl
                  | dir below =>
                      dsimp only
                      split_ifs <;> rfl

/-- A visit goes on below the entry itself, or by a link. -/
theorem visit_eq_enter (h : root.visit budget here above reach name node = .enter left place below) :
    (node = .dir below ∧ left = budget) ∨ (left < budget ∧ root.at? place = some (.dir below)) := by
  cases node with
  | file content => cases h
  | dir inner =>
      simp only [visit] at h
      split_ifs at h
      cases h
      exact .inl ⟨rfl, rfl⟩
  | link target =>
      simp only [visit] at h
      split_ifs at h
      split at h
      · cases h
      · rename_i found left' hle hlt heq
        split at h
        · cases h
        · rename_i inner hat
          split_ifs at h
          cases h
          exact .inr ⟨hlt, hat⟩
        · cases h

theorem visit_each (hroot : root.Each P) (hnode : node.Each P)
    (h : root.visit budget here above reach name node = .enter left place below) :
    (Node.dir below).Each P := by
  rcases visit_eq_enter h with ⟨rfl, -⟩ | ⟨-, hat⟩
  · exact hnode
  · exact hroot.at? hat

/-! ### All entries -/

/-- What holds of no entries, and of some when it holds of those after the first and of those that
the first leads to, holds of all. -/
theorem walk_induction (root : Node)
    {motive : Nat → Location → List Location → Nat → List (RawPath × Node) → Prop}
    (nil : ∀ budget here above stem, motive budget here above stem [])
    (cons : ∀ budget here above stem name node entries,
      (∀ left place below,
        root.visit budget here above (stem + name.size) name node = .enter left place below →
        motive left place (place :: above) (stem + name.size + 1) below) →
      motive budget here above stem entries → motive budget here above stem ((name, node) :: entries)) :
    ∀ budget here above stem entries, motive budget here above stem entries
  | _, _, _, _, [] => nil _ _ _ _
  | budget, here, above, stem, (name, node) :: entries => by
      refine cons _ _ _ _ _ _ _ (fun left place below h => ?_) ?_
      · have hless := visit_eq_enter h
        exact walk_induction root nil cons _ _ _ _ _
      · exact walk_induction root nil cons _ _ _ _ _
termination_by budget _ _ _ entries => (budget, sizeOf entries)
decreasing_by
  · rcases hless with ⟨rfl, rfl⟩ | ⟨hlt, -⟩
    · apply Prod.Lex.right
      simp only [List.cons.sizeOf_spec, Prod.mk.sizeOf_spec, Node.dir.sizeOf_spec]
      omega
    · exact Prod.Lex.left _ _ hlt
  · apply Prod.Lex.right
    simp only [List.cons.sizeOf_spec, Prod.mk.sizeOf_spec]
    omega

/-- A path that a walk takes without being asked for hidden files. -/
def IsVisible (path : List RawPath) : Bool :=
  path.all (! isHidden ·)

namespace Visit

variable {visit : Visit} {found : Nat → Location → List (RawPath × Node) → List (List RawPath)}
  {path : List RawPath}

theorem filter_paths : (visit.paths name found).filter IsVisible =
    if isHidden name then []
    else visit.paths name fun budget place entries => (found budget place entries).filter IsVisible := by
  cases visit with
  | skip => simp [paths]
  | take =>
      by_cases hhidden : isHidden name <;> simp [paths, IsVisible, hhidden]
  | enter budget place entries =>
      have hcons : (IsVisible ∘ (name :: ·)) = fun path => ! isHidden name && IsVisible path := rfl
      rw [paths, List.filter_map, hcons]
      by_cases hhidden : isHidden name
      · simp [hhidden]
      · simp [hhidden, paths]

theorem mem_paths_iff : path ∈ visit.paths name found ↔ ∃ rest, path = name :: rest ∧
    (visit = .take ∧ rest = [] ∨ ∃ budget place entries,
      visit = .enter budget place entries ∧ rest ∈ found budget place entries) := by
  cases visit with
  | skip => simp [paths]
  | take => simp [paths]
  | enter budget place entries => simp [paths, eq_comm, and_comm]

theorem nodup_paths (h : ∀ budget place entries, visit = .enter budget place entries →
    (found budget place entries).Nodup) : (visit.paths name found).Nodup := by
  cases visit with
  | skip => exact List.nodup_nil
  | take => exact List.nodup_singleton _
  | enter budget place entries => exact (h budget place entries rfl).map (List.cons_injective)

end Visit

/-- Hidden files are left out of a walk, and nothing else is. -/
theorem files_false_eq_filter (root : Node) (budget : Nat) (here : Location) (above : List Location)
    (stem : Nat) (entries : List (RawPath × Node)) :
    root.files false budget here above stem entries =
      (root.files true budget here above stem entries).filter IsVisible := by
  induction budget, here, above, stem, entries using walk_induction root with
  | nil budget here above stem => rw [files_nil, files_nil, List.filter_nil]
  | cons budget here above stem name node entries ihbelow ih =>
      rw [files_cons, files_cons, List.filter_append, ih]
      congr 1
      rw [if_neg (not_and_not_right.mpr fun _ => rfl), Visit.filter_paths]
      by_cases hhidden : isHidden name
      · rw [if_pos hhidden, if_pos ⟨hhidden, Bool.false_ne_true⟩]
      · rw [if_neg hhidden, if_neg fun h => hhidden h.1]
        cases hvisit : root.visit budget here above (stem + name.size) name node with
        | skip => rfl
        | take => rfl
        | enter left place below => rw [Visit.paths, Visit.paths, ihbelow left place below hvisit]

/-- A file that a walk finds from an entry or from one after it. -/
theorem mem_files_cons {path : List RawPath}
    (h : path ∈ root.files hidden budget here above stem ((name, node) :: entries)) :
    (∃ rest, path = name :: rest ∧
      (rest = [] ∨ ∃ left place below,
        root.visit budget here above (stem + name.size) name node = .enter left place below ∧
        rest ∈ root.files hidden left place (place :: above) (stem + name.size + 1) below)) ∨
      path ∈ root.files hidden budget here above stem entries := by
  rw [files_cons, List.mem_append] at h
  refine h.imp_left fun h => ?_
  split_ifs at h with hskip
  · cases h
  · obtain ⟨rest, rfl, hrest⟩ := Visit.mem_paths_iff.mp h
    exact ⟨rest, rfl, hrest.imp_left And.right⟩

theorem head_mem_of_mem_files {path : List RawPath}
    (hpath : path ∈ root.files hidden budget here above stem entries) :
    ∃ name ∈ entries.map (·.1), ∃ rest, path = name :: rest := by
  induction entries with
  | nil =>
      rw [files_nil] at hpath
      cases hpath
  | cons entry entries ih =>
      rcases mem_files_cons hpath with ⟨rest, rfl, -⟩ | hpath
      · exact ⟨_, List.mem_cons_self, rest, rfl⟩
      · obtain ⟨name, hname, hrest⟩ := ih hpath
        exact ⟨name, List.mem_cons_of_mem _ hname, hrest⟩

/-- A walk finds every path once. -/
theorem nodup_files (hroot : root.Each List.Nodup) (hentries : (Node.dir entries).Each List.Nodup) :
    (root.files hidden budget here above stem entries).Nodup := by
  induction budget, here, above, stem, entries using walk_induction root with
  | nil budget here above stem =>
      rw [files_nil]
      exact List.nodup_nil
  | cons budget here above stem name node entries ihbelow ih =>
      obtain ⟨hnames, hbelow⟩ := Each.dir_iff.mp hentries
      rw [List.map_cons, List.nodup_cons] at hnames
      rw [List.forall_mem_cons] at hbelow
      rw [files_cons]
      refine List.Nodup.append ?_ (ih (.dir hnames.2 hbelow.2)) ?_
      · split_ifs with hskip
        · exact List.nodup_nil
        · exact Visit.nodup_paths fun left place below hvisit =>
            ihbelow left place below hvisit (visit_each hroot hbelow.1 hvisit)
      · intro path hfirst hlater
        split_ifs at hfirst with hskip
        · cases hfirst
        · obtain ⟨rest, rfl, -⟩ := Visit.mem_paths_iff.mp hfirst
          obtain ⟨other, hother, rest', heq⟩ := head_mem_of_mem_files hlater
          cases heq
          exact hnames.1 hother

end AssetPipeline.Node
