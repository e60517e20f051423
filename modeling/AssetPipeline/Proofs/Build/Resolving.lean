import AssetPipeline.Proofs.Build.FileList

/-! What a resolver remembers. One of its three stores holds patterns as they were read, one holds
listings, and one holds results that follow from these two. So all that it knows of the file tree are
first listings, and it answers as if every directory were still what it was when it was first listed. -/

namespace AssetPipeline

/-- The listings that are known of a directory, with its hidden files or without. -/
abbrev Known := Path.Key → Bool → Option (List String)

/-- What a look at a source directory adds: its listing, if there is one and it was not known before. -/
def Known.learn (known : Known) (s : Sources) (hidden : Bool) : Known := fun key hidden' =>
  (known key hidden').or
    (if Path.key s.root = key ∧ hidden = hidden' then (s.files hidden).toOption else none)

/-- The source directory with known listings in the place of its own. -/
def Sources.asKnown (s : Sources) (known : Known) : Sources where
  root := s.root
  files hidden := (known (Path.key s.root) hidden).elim (s.files hidden) .ok

variable {known : Known} {s : Sources} {hidden : Bool}

theorem Sources.list_asKnown_of_some {files : List String}
    (h : known (Path.key s.root) hidden = some files) : (s.asKnown known).list hidden = .ok files := by
  change Except.mapError _ (Option.elim (known (Path.key s.root) hidden) _ _) = _
  rw [h]
  rfl

theorem Sources.list_asKnown_of_none (h : known (Path.key s.root) hidden = none) :
    (s.asKnown known).list hidden = s.list hidden := by
  change Except.mapError _ (Option.elim (known (Path.key s.root) hidden) _ _) = _
  rw [h]
  rfl

theorem Known.learn_of_some {files : List String} (h : known (Path.key s.root) hidden = some files) :
    known.learn s hidden = known := by
  funext key hidden'
  rw [learn]
  split_ifs with hsame
  · rw [← hsame.1, ← hsame.2, h]
    rfl
  · exact Option.or_none

theorem Known.learn_of_error {fault : BuildFault} (h : s.list hidden = .error fault) :
    known.learn s hidden = known := by
  obtain ⟨cause, hfiles, -⟩ := mapError_eq_error_iff.mp h
  funext key hidden'
  rw [learn]
  split_ifs with hsame
  · rw [← hsame.2, hfiles]
    exact Option.or_none
  · exact Option.or_none

/-- What is known after a look is what the look showed. -/
theorem Known.learn_self_iff {files : List String} :
    known.learn s hidden (Path.key s.root) hidden = some files ↔
      (s.asKnown known).list hidden = .ok files := by
  rw [learn, if_pos ⟨rfl, rfl⟩]
  cases hknown : known (Path.key s.root) hidden with
  | some listing =>
      rw [Sources.list_asKnown_of_some hknown, Option.some_or, Option.some_inj, Except.ok.injEq]
  | none =>
      rw [Sources.list_asKnown_of_none hknown, Sources.list, mapError_eq_ok_iff, Option.none_or]
      cases s.files hidden with
      | error fault => constructor <;> intro h <;> cases h
      | ok listing => rw [Except.toOption, Option.some_inj, Except.ok.injEq]

theorem lookup_cons_eq_some {α β : Type} [BEq α] [LawfulBEq α] {entries : List (α × β)} {key key' : α}
    {entry found : β} (h : ((key, entry) :: entries).lookup key' = some found) :
    (key' = key ∧ entry = found) ∨ entries.lookup key' = some found := by
  rw [List.lookup_cons] at h
  cases hsame : key' == key with
  | true =>
      rw [hsame] at h
      exact .inl ⟨eq_of_beq hsame, Option.some.inj h⟩
  | false =>
      rw [hsame] at h
      exact .inr h

namespace Resolver

/-- The stores of a resolver hold patterns as they are read, the known listings, and what matches the
patterns in these. -/
structure Remembers (r : Resolver) (known : Known) : Prop where
  globs : ∀ pattern glob, r.globs.lookup pattern = some glob → Glob.compile pattern = .ok glob
  listings : ∀ key hidden, r.listings.lookup (key, hidden) = known key hidden
  results : ∀ pattern key found, r.results.lookup (pattern, key) = some found →
    ∃ glob files, Glob.compile pattern = .ok glob ∧ known key (Glob.namesHidden pattern) = some files ∧
      found = files.filter glob.accepts

variable {r : Resolver} {pattern : String}

theorem remembers_nothing : Remembers {} fun _ _ => none where
  globs := nofun
  listings _ _ := rfl
  results := nofun

/-! ### Steps -/

theorem Remembers.glob (h : r.Remembers known) (pattern : String) :
    (r.glob pattern).1 = Glob.compile pattern ∧ (r.glob pattern).2.Remembers known := by
  rw [Resolver.glob]
  cases hlookup : r.globs.lookup pattern with
  | some glob => exact ⟨(h.globs _ _ hlookup).symm, h⟩
  | none =>
      cases hcompile : Glob.compile pattern with
      | error fault => exact ⟨rfl, h⟩
      | ok glob =>
          refine ⟨rfl, fun pattern' glob' hfound => ?_, h.listings, h.results⟩
          rcases lookup_cons_eq_some hfound with ⟨rfl, rfl⟩ | hfound
          · exact hcompile
          · exact h.globs _ _ hfound

/-- A pattern that cannot be read changes nothing. -/
theorem Remembers.glob_error (h : r.Remembers known) {fault : BuildFault}
    (hcompile : Glob.compile pattern = .error fault) : r.glob pattern = (.error fault, r) := by
  rw [Resolver.glob]
  cases hlookup : r.globs.lookup pattern with
  | some glob =>
      rw [h.globs _ _ hlookup] at hcompile
      cases hcompile
  | none => rw [hcompile]

/-- A listing goes into the store when the directory is listed for the first time. -/
theorem Remembers.learn (h : r.Remembers known) {files : List String} (hfiles : s.list hidden = .ok files)
    (hknown : known (Path.key s.root) hidden = none) :
    Remembers { r with listings := ((Path.key s.root, hidden), files) :: r.listings }
      (known.learn s hidden) := by
  rw [Sources.list, mapError_eq_ok_iff] at hfiles
  refine ⟨h.globs, fun key hidden' => ?_, fun pattern key found hfound => ?_⟩
  · have hlookup := h.listings key hidden'
    rw [List.lookup_cons, Known.learn]
    by_cases hsame : Path.key s.root = key ∧ hidden = hidden'
    · obtain ⟨rfl, rfl⟩ := hsame
      rw [beq_self_eq_true, hknown, if_pos ⟨rfl, rfl⟩, hfiles]
      rfl
    · have hne : (key, hidden') ≠ (Path.key s.root, hidden) := by
        intro heq
        cases heq
        exact hsame ⟨rfl, rfl⟩
      rw [beq_false_of_ne hne, if_neg hsame, Option.or_none]
      exact hlookup
  · obtain ⟨glob, listing, hcompile, hlisting, rfl⟩ := h.results _ _ _ hfound
    refine ⟨glob, listing, hcompile, ?_, rfl⟩
    rw [Known.learn, hlisting]
    rfl

theorem Remembers.list (h : r.Remembers known) (s : Sources) (hidden : Bool) :
    (r.list s hidden).1 = (s.asKnown known).list hidden ∧
      (r.list s hidden).2.Remembers (known.learn s hidden) := by
  have hlookup := h.listings (Path.key s.root) hidden
  rw [Resolver.list]
  cases hknown : known (Path.key s.root) hidden with
  | some files =>
      rw [Known.learn_of_some hknown, Sources.list_asKnown_of_some hknown]
      rw [hlookup, hknown]
      exact ⟨rfl, h⟩
  | none =>
      rw [Sources.list_asKnown_of_none hknown]
      rw [hlookup, hknown]
      cases hfiles : s.list hidden with
      | error fault =>
          rw [Known.learn_of_error hfiles]
          exact ⟨rfl, h⟩
      | ok files => exact ⟨rfl, h.learn hfiles hknown⟩

/-- A result goes into the store when it has been picked from a known listing. -/
theorem Remembers.result (h : r.Remembers known) {glob : Glob} {key : Path.Key} {files : List String}
    (hcompile : Glob.compile pattern = .ok glob)
    (hfiles : known key (Glob.namesHidden pattern) = some files) :
    Remembers { r with results := ((pattern, key), files.filter glob.accepts) :: r.results } known := by
  refine ⟨h.globs, h.listings, fun pattern' key' found hfound => ?_⟩
  rcases lookup_cons_eq_some hfound with ⟨hsame, rfl⟩ | hfound
  · cases hsame
    exact ⟨glob, files, hcompile, hfiles, rfl⟩
  · exact h.results _ _ _ hfound

/-- What a look at a directory on behalf of a pattern adds. A pattern that cannot be read leads to
none. -/
def looked (known : Known) (s : Sources) (pattern : String) : Known :=
  if (Glob.compile pattern).isOk then known.learn s (Glob.namesHidden pattern) else known

theorem Remembers.resolve (h : r.Remembers known) (s : Sources) (pattern : String) :
    (r.resolve s pattern).1 = (s.asKnown known).resolve pattern ∧
      (r.resolve s pattern).2.Remembers (looked known s pattern) := by
  rw [Resolver.resolve, Sources.resolve, looked]
  cases hlookup : r.results.lookup (pattern, Path.key s.root) with
  | some found =>
      obtain ⟨glob, files, hcompile, hfiles, rfl⟩ := h.results _ _ _ hlookup
      rw [hcompile, Sources.list_asKnown_of_some hfiles, Known.learn_of_some hfiles]
      exact ⟨rfl, h⟩
  | none =>
      cases hcompile : Glob.compile pattern with
      | error fault =>
          rw [h.glob_error hcompile]
          exact ⟨rfl, h⟩
      | ok glob =>
          obtain ⟨hglob, hread⟩ := h.glob pattern
          rw [hcompile] at hglob
          rcases hnext : r.glob pattern with ⟨_, next⟩
          rw [hnext] at hglob hread
          cases hglob
          obtain ⟨hlist, hlisted⟩ := hread.list s (Glob.namesHidden pattern)
          rcases hlast : next.list s (Glob.namesHidden pattern) with ⟨answer, last⟩
          rw [hlast] at hlist hlisted
          dsimp only
          rw [hlast, ← hlist]
          cases answer with
          | error fault => exact ⟨rfl, hlisted⟩
          | ok files => exact ⟨rfl, hlisted.result hcompile (Known.learn_self_iff.mpr hlist.symm)⟩

theorem Remembers.matches (h : r.Remembers known) (path pattern : String) :
    (r.matches path pattern).1 = Glob.matches path pattern ∧
      (r.matches path pattern).2.Remembers known := by
  obtain ⟨hglob, hread⟩ := h.glob pattern
  rw [Resolver.matches, Glob.matches, ← hglob]
  rcases hnext : r.glob pattern with ⟨_ | glob, next⟩
  · rw [hnext] at hread
    exact ⟨rfl, hread⟩
  · rw [hnext] at hread
    exact ⟨rfl, hread⟩

/-- What matches is picked from what is known once the directory has been looked at. -/
theorem resolve_asKnown_eq_ok_iff {files : List String} :
    (s.asKnown known).resolve pattern = .ok files ↔ ∃ glob listing, Glob.compile pattern = .ok glob ∧
      looked known s pattern (Path.key s.root) (Glob.namesHidden pattern) = some listing ∧
      files = listing.filter glob.accepts := by
  rw [Sources.resolve, bind_eq_ok_iff, looked]
  refine exists_congr fun glob => ?_
  constructor
  · rintro ⟨hcompile, h⟩
    obtain ⟨listing, hlisting, h⟩ := bind_eq_ok_iff.mp h
    cases h
    rw [hcompile]
    exact ⟨listing, rfl, Known.learn_self_iff.mpr hlisting, rfl⟩
  · rintro ⟨listing, hcompile, hlisting, rfl⟩
    rw [hcompile] at hlisting
    exact ⟨hcompile, bind_eq_ok_iff.mpr ⟨listing, Known.learn_self_iff.mp hlisting, rfl⟩⟩

/-- A result stands for every spelling of the root, whatever has become of the directory. -/
theorem resolve_again {s' : Sources} {files : List String} (hroot : Path.key s'.root = Path.key s.root)
    (h : (s.asKnown known).resolve pattern = .ok files) :
    (s'.asKnown (looked known s pattern)).resolve pattern = .ok files := by
  obtain ⟨glob, listing, hcompile, hlisting, rfl⟩ := resolve_asKnown_eq_ok_iff.mp h
  rw [← hroot] at hlisting
  refine bind_eq_ok_iff.mpr ⟨glob, hcompile, ?_⟩
  exact bind_eq_ok_iff.mpr ⟨listing, Sources.list_asKnown_of_some hlisting, rfl⟩

/-! ### Failures -/

/-- A failure adds nothing to what is known, be it the pattern's or the listing's. -/
theorem looked_of_error {fault : BuildFault} (h : (s.asKnown known).resolve pattern = .error fault) :
    looked known s pattern = known := by
  rw [looked]
  cases hcompile : Glob.compile pattern with
  | error fault => rfl
  | ok glob =>
      rw [Sources.resolve, hcompile] at h
      cases hknown : known (Path.key s.root) (Glob.namesHidden pattern) with
      | some files =>
          rw [Sources.list_asKnown_of_some hknown] at h
          cases h
      | none =>
          rw [Sources.list_asKnown_of_none hknown] at h
          cases hfiles : s.list (Glob.namesHidden pattern) with
          | error fault => exact Known.learn_of_error hfiles
          | ok files =>
              rw [hfiles] at h
              cases h

theorem Remembers.resolve_invalid (h : r.Remembers known) {fault : BuildFault}
    (hcompile : Glob.compile pattern = .error fault) (s : Sources) :
    r.resolve s pattern = (.error fault, r) := by
  rw [Resolver.resolve]
  cases hlookup : r.results.lookup (pattern, Path.key s.root) with
  | some found =>
      obtain ⟨glob, files, hok, -⟩ := h.results _ _ _ hlookup
      rw [hok] at hcompile
      cases hcompile
  | none => rw [h.glob_error hcompile]

theorem Remembers.matches_invalid (h : r.Remembers known) {fault : BuildFault}
    (hcompile : Glob.compile pattern = .error fault) (path : String) :
    r.matches path pattern = (.error fault, r) := by
  rw [Resolver.matches, h.glob_error hcompile]

end Resolver

/-! ### Calls -/

/-- A call on a resolver: for the files of a directory that match a pattern, with the tree as it is at
that time, or for whether a path matches one. -/
inductive ResolverCall where
  | resolve (tree : Workspace) (root pattern : String)
  | test (path pattern : String)

/-- The listing that a call would take of a directory. -/
def ResolverCall.listing? (key : Path.Key) (hidden : Bool) : ResolverCall → Option (List String)
  | resolve tree root pattern =>
      if (Glob.compile pattern).isOk ∧ Path.key root = key ∧ Glob.namesHidden pattern = hidden then
        (tree.listFiles root hidden).toOption
      else none
  | test _ _ => none

/-- The first listing that one of the calls takes of a directory. -/
def firstListing (calls : List ResolverCall) : Known := fun key hidden =>
  calls.findSome? (·.listing? key hidden)

namespace Resolver

def after (r : Resolver) : ResolverCall → Resolver
  | .resolve tree root pattern => (r.resolve (.ofWorkspace tree root) pattern).2
  | .test path pattern => (r.matches path pattern).2

def afterCalls (calls : List ResolverCall) : Resolver :=
  calls.foldl after {}

variable (calls : List ResolverCall)

theorem firstListing_append (later : List ResolverCall) (key : Path.Key) (hidden : Bool) :
    firstListing (calls ++ later) key hidden =
      (firstListing calls key hidden).or (firstListing later key hidden) :=
  List.findSome?_append

theorem firstListing_singleton (call : ResolverCall) (key : Path.Key) (hidden : Bool) :
    firstListing [call] key hidden = call.listing? key hidden :=
  List.findSome?_singleton

theorem looked_firstListing (tree : Workspace) (root pattern : String) :
    looked (firstListing calls) (.ofWorkspace tree root) pattern =
      firstListing (calls ++ [.resolve tree root pattern]) := by
  funext key hidden
  rw [firstListing_append, firstListing_singleton, ResolverCall.listing?, looked]
  cases Glob.compile pattern with
  | error fault => exact Option.or_none.symm
  | ok glob =>
      have hread : (Except.ok glob : Except BuildFault Glob).isOk = true := rfl
      rw [if_pos hread, Known.learn]
      congr 1
      by_cases hsame : Path.key root = key ∧ Glob.namesHidden pattern = hidden
      · refine (if_pos hsame).trans ?_
        rw [if_pos ⟨hread, hsame⟩, ← hsame.2]
        rfl
      · exact (if_neg hsame).trans (if_neg fun h => hsame h.2).symm

/-- All that a resolver ever knows of the file tree are first listings. -/
theorem remembers_afterCalls : (afterCalls calls).Remembers (firstListing calls) := by
  induction calls using List.reverseRecOn with
  | nil => exact remembers_nothing
  | append_singleton calls call ih =>
      rw [afterCalls, List.foldl_append, ← afterCalls]
      cases call with
      | resolve tree root pattern =>
          rw [← looked_firstListing]
          exact (ih.resolve _ _).2
      | test path pattern =>
          have hsame : firstListing (calls ++ [.test path pattern]) = firstListing calls := by
            funext key hidden
            rw [firstListing_append]
            exact Option.or_none
          rw [hsame]
          exact (ih.matches _ _).2

theorem resolve_afterCalls (s : Sources) (pattern : String) :
    ((afterCalls calls).resolve s pattern).1 = (s.asKnown (firstListing calls)).resolve pattern :=
  ((remembers_afterCalls calls).resolve s pattern).1

theorem exists_of_firstListing {key : Path.Key} {files : List String}
    (h : firstListing calls key hidden = some files) : ∃ tree root pattern,
      .resolve tree root pattern ∈ calls ∧ Path.key root = key ∧ tree.listFiles root hidden = .ok files := by
  obtain ⟨call, hcall, hlisting⟩ := List.exists_of_findSome?_eq_some h
  cases call with
  | test path pattern => cases hlisting
  | resolve tree root pattern =>
      rw [ResolverCall.listing?] at hlisting
      split_ifs at hlisting with hsame
      refine ⟨tree, root, pattern, hcall, hsame.2.1, ?_⟩
      cases hfiles : tree.listFiles root hidden with
      | error fault =>
          rw [hfiles] at hlisting
          cases hlisting
      | ok found =>
          rw [hfiles] at hlisting
          cases hlisting
          rfl

/-- A call that fails adds no listing. -/
theorem firstListing_append_of_error {tree : Workspace} {root pattern : String} {fault : BuildFault}
    (h : ((Sources.ofWorkspace tree root).asKnown (firstListing calls)).resolve pattern = .error fault)
    (later : List ResolverCall) :
    firstListing (calls ++ .resolve tree root pattern :: later) = firstListing (calls ++ later) := by
  have hlooked := looked_of_error h
  rw [looked_firstListing] at hlooked
  funext key hidden
  have hboth : calls ++ .resolve tree root pattern :: later =
      (calls ++ [.resolve tree root pattern]) ++ later := List.append_cons calls _ later
  rw [hboth, firstListing_append, hlooked, firstListing_append]

/-- Where all that was listed before is what is listed now, nothing tells that it was listed. -/
theorem resolve_asKnown_firstListing {tree : Workspace} {root pattern : String}
    (h : ∀ tree' root' pattern' files, .resolve tree' root' pattern' ∈ calls →
      Path.key root' = Path.key root → tree'.listFiles root' (Glob.namesHidden pattern) = .ok files →
      tree.listFiles root (Glob.namesHidden pattern) = .ok files) :
    ((Sources.ofWorkspace tree root).asKnown (firstListing calls)).resolve pattern =
      (Sources.ofWorkspace tree root).resolve pattern := by
  have hlist : ((Sources.ofWorkspace tree root).asKnown (firstListing calls)).list
      (Glob.namesHidden pattern) = (Sources.ofWorkspace tree root).list (Glob.namesHidden pattern) := by
    cases hfirst : firstListing calls (Path.key root) (Glob.namesHidden pattern) with
    | none => exact Sources.list_asKnown_of_none hfirst
    | some files =>
        obtain ⟨tree', root', pattern', hcall, hkey, hfiles⟩ := exists_of_firstListing calls hfirst
        rw [Sources.list_asKnown_of_some hfirst]
        exact (mapError_eq_ok_iff.mpr (h _ _ _ _ hcall hkey hfiles)).symm
  rw [Sources.resolve, Sources.resolve, hlist]

end Resolver

/-- A resolver after any calls, on trees that may change between them. What it resolves to is picked
from the first listing of the directory in its life. A pattern that cannot be read fails and changes
nothing. A failure is forgotten. Whether a path matches does not depend on the calls before, and neither
do the files, as long as all that was listed under any spelling of the root is what is listed now under
the one asked for. -/
theorem resolver_answers (calls : List ResolverCall) (tree : Workspace) (root pattern : String) :
    (∀ files, ((Resolver.afterCalls calls).resolve (.ofWorkspace tree root) pattern).1 = .ok files ↔
      ∃ glob listing, Glob.compile pattern = .ok glob ∧
        firstListing (calls ++ [.resolve tree root pattern]) (Path.key root) (Glob.namesHidden pattern) =
          some listing ∧
        files = listing.filter glob.accepts) ∧
    (∀ fault, Glob.parse pattern = .error fault →
      (Resolver.afterCalls calls).resolve (.ofWorkspace tree root) pattern =
          (.error (.invalidPattern pattern fault), Resolver.afterCalls calls) ∧
        ∀ path, (Resolver.afterCalls calls).matches path pattern =
          (.error (.invalidPattern pattern fault), Resolver.afterCalls calls)) ∧
    (∀ fault,
      ((Resolver.afterCalls calls).resolve (.ofWorkspace tree root) pattern).1 = .error fault →
      ∀ later tree' root' pattern',
        ((Resolver.afterCalls (calls ++ .resolve tree root pattern :: later)).resolve
            (.ofWorkspace tree' root') pattern').1 =
          ((Resolver.afterCalls (calls ++ later)).resolve (.ofWorkspace tree' root') pattern').1) ∧
    (∀ path, ((Resolver.afterCalls calls).matches path pattern).1 =
      (({} : Resolver).matches path pattern).1) ∧
    ((∀ tree' root' pattern' files, .resolve tree' root' pattern' ∈ calls →
        Path.key root' = Path.key root → tree'.listFiles root' (Glob.namesHidden pattern) = .ok files →
        tree.listFiles root (Glob.namesHidden pattern) = .ok files) →
      ((Resolver.afterCalls calls).resolve (.ofWorkspace tree root) pattern).1 =
        (({} : Resolver).resolve (.ofWorkspace tree root) pattern).1) := by
  have hstate := Resolver.remembers_afterCalls calls
  refine ⟨fun files => ?_, fun fault hparse => ?_, fun fault herror => ?_, fun path => ?_, fun hsame => ?_⟩
  · rw [Resolver.resolve_afterCalls, ← Resolver.looked_firstListing]
    exact Resolver.resolve_asKnown_eq_ok_iff
  · have hcompile : Glob.compile pattern = .error (.invalidPattern pattern fault) := by
      rw [Glob.compile, hparse]
      rfl
    exact ⟨hstate.resolve_invalid hcompile _, hstate.matches_invalid hcompile⟩
  · intro later tree' root' pattern'
    rw [Resolver.resolve_afterCalls] at herror
    rw [Resolver.resolve_afterCalls, Resolver.resolve_afterCalls,
      Resolver.firstListing_append_of_error calls herror]
  · rw [(hstate.matches path pattern).1, (Resolver.remembers_nothing.matches path pattern).1]
  · rw [Resolver.resolve_afterCalls, Resolver.resolve_asKnown_firstListing calls hsame,
      (Resolver.remembers_nothing.resolve _ _).1]
    rfl

/-- A question that cannot be answered, and the first look at the picture of the atlas. -/
def bareCalls : List ResolverCall :=
  [.test "hero.psd" "[", .resolve (sourceWorkspace bareEntries) "src" "**/*.psd"]

theorem resolver_answers_bare :
    ((Resolver.afterCalls bareCalls).resolve (.ofWorkspace (sourceWorkspace bareEntries) "src")
      "**/*.psd").1 = .ok ["art/hero.psd"] := by
  have hlisted : ∀ (tree : Workspace) root pattern files, .resolve tree root pattern ∈ bareCalls →
      Path.key root = Path.key "src" → tree.listFiles root (Glob.namesHidden "**/*.psd") = .ok files →
      (sourceWorkspace bareEntries).listFiles "src" (Glob.namesHidden "**/*.psd") = .ok files := by
    intro tree root pattern files hcall _ hfiles
    simp only [bareCalls, List.mem_cons, List.not_mem_nil, or_false, reduceCtorEq, false_or,
      ResolverCall.resolve.injEq] at hcall
    obtain ⟨rfl, rfl, -⟩ := hcall
    exact hfiles
  rw [(resolver_answers bareCalls (sourceWorkspace bareEntries) "src" "**/*.psd").2.2.2.2 hlisted,
    (Resolver.remembers_nothing.resolve _ _).1]
  exact resolve_bareEntries

/-- A slash at the end does not tell roots apart. -/
theorem Path.key_concat_slash {root : List Char} (h : root ≠ []) :
    key (String.ofList (root ++ ['/'])) = key (String.ofList root) := by
  have hsegments : segments (String.ofList (root ++ ['/'])) = segments (String.ofList root) ++ [""] := by
    rw [segments, segments, String.toList_ofList, String.toList_ofList, Chars.splitOn_eq, Chars.splitOn_eq,
      List.splitOn_append_cons_self, List.map_append]
    rfl
  have hne : segments (String.ofList root) ≠ [] := by
    rw [segments, ne_eq, List.map_eq_nil_iff]
    exact Chars.splitOn_ne_nil _ _
  obtain ⟨first, rest, hcons⟩ := List.exists_cons_of_ne_nil hne
  obtain ⟨c, root, rfl⟩ := List.exists_cons_of_ne_nil h
  rw [key, key, hsegments, hcons, String.toList_ofList, String.toList_ofList]
  simp [isStep]

/-- The root `src` with slashes behind it. -/
def slashedRoot (slashes : Nat) : String :=
  String.ofList ("src".toList ++ List.replicate slashes '/')

theorem key_slashedRoot (slashes : Nat) : Path.key (slashedRoot slashes) = Path.key "src" := by
  induction slashes with
  | zero => rfl
  | succ slashes ih =>
      rw [slashedRoot, List.replicate_succ', ← List.append_assoc, Path.key_concat_slash]
      · exact ih
      · exact List.append_ne_nil_of_left_ne_nil (by decide) _

theorem parse_slashedRoot {slashes : Nat} (h : 4092 < slashes) :
    Route.parse (slashedRoot slashes) = .error .nameTooLong := by
  have hnul : (slashedRoot slashes).toList.contains '\x00' = false := by simp [slashedRoot]
  have hne : slashedRoot slashes ≠ "" := by simp [slashedRoot]
  have hlength : (slashedRoot slashes).utf8ByteSize = 3 + slashes := by
    rw [slashedRoot, String.ofList_append, String.utf8ByteSize_append]
    clear h hnul hne
    induction slashes with
    | zero => rfl
    | succ slashes ih =>
        rw [List.replicate_succ', String.ofList_append, String.utf8ByteSize_append, ← Nat.add_assoc, ih]
        rfl
  have hlong : Route.maxPathBytes < (slashedRoot slashes).utf8ByteSize := by
    rw [hlength, Route.maxPathBytes]
    omega
  rw [Route.parse_ofString, hnul, if_neg Bool.false_ne_true, if_neg hne, if_pos hlong]

/-- What has been listed under a short name answers for a name that is too long to be listed. -/
theorem resolve_slashedRoot {slashes : Nat} (h : 4092 < slashes) :
    ((Resolver.afterCalls [.resolve (sourceWorkspace bareEntries) "src" "**/*.psd"]).resolve
        (.ofWorkspace (sourceWorkspace bareEntries) (slashedRoot slashes)) "**/*.psd").1 =
      .ok ["art/hero.psd"] ∧
    (({} : Resolver).resolve (.ofWorkspace (sourceWorkspace bareEntries) (slashedRoot slashes))
        "**/*.psd").1 = .error (.sourceDirectory (slashedRoot slashes) (.file .nameTooLong)) := by
  constructor
  · have hcall := Resolver.looked_firstListing [] (sourceWorkspace bareEntries) "src" "**/*.psd"
    rw [List.nil_append] at hcall
    rw [Resolver.resolve_afterCalls, ← hcall]
    exact Resolver.resolve_again (key_slashedRoot slashes) resolve_bareEntries
  · obtain ⟨glob, hcompile, -⟩ := bind_eq_ok_iff.mp resolve_bareEntries
    have hlist : (sourceWorkspace bareEntries).listFiles (slashedRoot slashes)
        (Glob.namesHidden "**/*.psd") = .error (.file .nameTooLong) := by
      rw [Workspace.listFiles, Workspace.locate, parse_slashedRoot h]
      rfl
    rw [(Resolver.remembers_nothing.resolve _ _).1, Sources.resolve, hcompile]
    change Except.bind (Except.mapError _ (Workspace.listFiles _ _ _)) _ = _
    rw [hlist]
    rfl

/-- Over an unchanging tree the answer can differ from a fresh one. -/
theorem resolver_answers_slashed :
    ((Resolver.afterCalls [.resolve (sourceWorkspace bareEntries) "src" "**/*.psd"]).resolve
        (.ofWorkspace (sourceWorkspace bareEntries) (slashedRoot 4093)) "**/*.psd").1 =
      .ok ["art/hero.psd"] ∧
    (({} : Resolver).resolve (.ofWorkspace (sourceWorkspace bareEntries) (slashedRoot 4093))
        "**/*.psd").1 = .error (.sourceDirectory (slashedRoot 4093) (.file .nameTooLong)) :=
  resolve_slashedRoot (by decide)

end AssetPipeline
