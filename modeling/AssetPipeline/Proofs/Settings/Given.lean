import AssetPipeline.Proofs.Files.Writing
import AssetPipeline.Proofs.Toml.Keys
import AssetPipeline.Settings.File
import Mathlib

/-! What a settings file gives. The part of a document that counts is accepted only if each entry of it is
one of the settings and has a text, and then the settings hold all of them and are the defaults otherwise.
Beside an `assetman` entry the rest of a document does not count, whatever stands there. -/

namespace AssetPipeline

namespace Settings

variable {s t : Settings} {entries inner part : List (String × Toml.Value)} {items : List Toml.Value}
  {name text path source : String} {value : Toml.Value} {key : Key}

/-! ### Settings by their keys -/

/-- The text of a setting, if it has one. -/
def get? (s : Settings) : Key → Option String
  | .script => some s.script
  | .graphFile => some s.graphFile
  | .fileList => some s.fileList
  | .dirtyMarker => some s.dirtyMarker
  | .generator => s.generator
  | .cleanCommand => some s.cleanCommand

theorem get?_set (s : Settings) (text : String) (key other : Key) :
    (s.set text key).get? other = if other = key then some text else s.get? other := by
  cases key <;> cases other <;> rfl

theorem eq_of_get? (h : ∀ key, s.get? key = t.get? key) : s = t := by
  obtain ⟨script, graphFile, fileList, dirtyMarker, generator, cleanCommand⟩ := s
  obtain ⟨script', graphFile', fileList', dirtyMarker', generator', cleanCommand'⟩ := t
  rw [mk.injEq]
  exact ⟨Option.some.inj (h .script), Option.some.inj (h .graphFile), Option.some.inj (h .fileList),
    Option.some.inj (h .dirtyMarker), h .generator, Option.some.inj (h .cleanCommand)⟩

theorem Key.name_injective {key other : Key} (h : key.name = other.name) : key = other := by
  rw [← Option.some_inj, ← ofName?_name, ← ofName?_name, h]

theorem Key.ofName?_eq_some_iff : Key.ofName? name = some key ↔ name = key.name := by
  constructor
  · intro h
    have hname := List.find?_some h
    exact (of_decide_eq_true hname).symm
  · rintro rfl
    exact ofName?_name key

theorem Key.name_ne_assetman (key : Key) : key.name ≠ "assetman" := by
  cases key <;> decide

/-- The entry is one of the settings, and its value is that of the setting. -/
def Holds (s : Settings) (entry : String × Toml.Value) : Prop :=
  ∃ key text, entry.1 = key.name ∧ text? entry.2 = some text ∧ s.get? key = some text

/-- `t` holds all the entries, and is as `s` in the settings that they do not give. -/
structure Override (s : Settings) (entries : List (String × Toml.Value)) (t : Settings) : Prop where
  holds : ∀ entry ∈ entries, t.Holds entry
  kept : ∀ key : Key, key.name ∉ entries.map Prod.fst → t.get? key = s.get? key

theorem override_nil_iff : Override s [] t ↔ s = t := by
  constructor
  · exact fun h => eq_of_get? fun key => (h.kept key List.not_mem_nil).symm
  · rintro rfl
    exact ⟨List.forall_mem_nil _, fun _ _ => rfl⟩

/-- Where no key comes twice, nothing that is set is set again by a later entry. -/
theorem override_cons_iff (hname : name ∉ entries.map Prod.fst) :
    Override s ((name, value) :: entries) t ↔
      ∃ key text, name = key.name ∧ text? value = some text ∧ Override (s.set text key) entries t := by
  constructor
  · intro h
    obtain ⟨⟨key, text, rfl, htext, hget⟩, hholds⟩ := List.forall_mem_cons.mp h.holds
    refine ⟨key, text, rfl, htext, hholds, fun other hother => ?_⟩
    rw [get?_set]
    split_ifs with heq
    · rw [heq]
      exact hget
    · have hne : other.name ≠ key.name := fun hsame => heq (Key.name_injective hsame)
      exact h.kept other (by simpa [hne] using hother)
  · rintro ⟨key, text, rfl, htext, h⟩
    have hget : t.get? key = some text := by
      rw [h.kept key hname, get?_set, if_pos rfl]
    refine ⟨List.forall_mem_cons.mpr ⟨⟨key, text, rfl, htext, hget⟩, h.holds⟩, fun other hother => ?_⟩
    rw [List.map_cons, List.mem_cons, not_or] at hother
    obtain ⟨hne, hother⟩ := hother
    rw [h.kept other hother, get?_set, if_neg fun heq => hne (congrArg Key.name heq)]

theorem Override.perm {entries' : List (String × Toml.Value)} (hperm : entries.Perm entries')
    (h : Override s entries t) : Override s entries' t :=
  ⟨fun entry hentry => h.holds entry (hperm.mem_iff.mpr hentry),
    fun key hkey => h.kept key fun hmem => hkey ((hperm.map Prod.fst).mem_iff.mp hmem)⟩

/-! ### Values -/

theorem setAll_cons_eq_ok_iff : setAll s ((name, value) :: entries) = .ok t ↔
    ∃ key text, name = key.name ∧ text? value = some text ∧ setAll (s.set text key) entries = .ok t := by
  rw [setAll]
  constructor
  · intro h
    split at h
    · cases h
    · rename_i key hkey
      split at h
      · cases h
      · rename_i text htext
        exact ⟨key, text, Key.ofName?_eq_some_iff.mp hkey, htext, h⟩
  · rintro ⟨key, text, rfl, htext, h⟩
    rw [Key.ofName?_name, htext]
    exact h

theorem setAll_eq_ok_iff (hkeys : (entries.map Prod.fst).Nodup) :
    setAll s entries = .ok t ↔ Override s entries t := by
  induction entries generalizing s with
  | nil =>
      rw [override_nil_iff, setAll]
      exact ⟨Except.ok.inj, fun h => h ▸ rfl⟩
  | cons entry entries ih =>
      obtain ⟨name, value⟩ := entry
      rw [List.map_cons, List.nodup_cons] at hkeys
      simp only [setAll_cons_eq_ok_iff, ih hkeys.2, override_cons_iff hkeys.1]

/-- A list sets its items under the keys in their order. -/
theorem setInOrder_eq_ok_iff {keys : List Key} :
    setInOrder s keys items = .ok t ↔ setAll s ((keys.map Key.name).zip items) = .ok t := by
  induction keys generalizing s items with
  | nil => rfl
  | cons key keys ih =>
      cases items with
      | nil => rfl
      | cons value items =>
          rw [List.map_cons, List.zip_cons_cons, setInOrder, setAll, Key.ofName?_name]
          cases text? value with
          | none => exact ⟨fun h => (by cases h), fun h => (by cases h)⟩
          | some text => exact ih

/-- The entries that a value gives as settings: those of a table, or the items of a list that has at most
one for each key. -/
def entries? : Toml.Value → Option (List (String × Toml.Value))
  | .table entries => some entries
  | .array items =>
    if items.length ≤ Key.all.length then some ((Key.all.map Key.name).zip items) else none
  | _ => none

theorem ofValue_table_eq_ok_iff (hkeys : (entries.map Prod.fst).Nodup) :
    ofValue (.table entries) = .ok s ↔ Override {} entries s := by
  have hperm := List.mergeSort_perm entries fun a b => a.1 ≤ b.1
  rw [ofValue, setAll_eq_ok_iff ((hperm.map Prod.fst).nodup_iff.mpr hkeys)]
  exact ⟨fun h => h.perm hperm, fun h => h.perm hperm.symm⟩

theorem ofValue_array_eq_ok_iff : ofValue (.array items) = .ok s ↔
    items.length ≤ Key.all.length ∧ Override {} ((Key.all.map Key.name).zip items) s := by
  have hkeys : (((Key.all.map Key.name).zip items).map Prod.fst).Nodup := by
    have hall : (Key.all.map Key.name).Nodup := by decide
    rw [List.zip_eq_zip_take_min, List.map_fst_zip (by simp)]
    exact hall.sublist (List.take_sublist _ _)
  have hset : setInOrder {} Key.all items = .ok s ↔ Override {} ((Key.all.map Key.name).zip items) s := by
    rw [setInOrder_eq_ok_iff, setAll_eq_ok_iff hkeys]
  rw [ofValue, ← hset]
  cases setInOrder {} Key.all items with
  | error fault => simp
  | ok t =>
      dsimp only
      split_ifs with hlength
      · simp [Nat.not_le_of_lt hlength]
      · simp [Nat.le_of_not_lt hlength]

theorem ofValue_eq_ok_iff (hkeyed : value.Keyed) :
    ofValue value = .ok s ↔ ∃ part, entries? value = some part ∧ Override {} part s := by
  cases hkeyed with
  | table hkeys =>
      rw [ofValue_table_eq_ok_iff hkeys, entries?]
      simp only [Option.some.injEq, exists_eq_left']
  | array =>
      rw [ofValue_array_eq_ok_iff, entries?]
      simp only [Option.ite_none_right_eq_some, Option.some.injEq, and_assoc, exists_and_left,
        exists_eq_left']
  | _ => simp [ofValue, entries?]

/-! ### Documents -/

/-- The entries of a document that count: those under `assetman`, if there is such an entry, else its own. -/
def counted? (entries : List (String × Toml.Value)) : Option (List (String × Toml.Value)) :=
  entries? ((entries.lookup "assetman").getD (.table entries))

/-- What an entry of a document gives: itself, or in place of the `assetman` table the entries of that. -/
def givenBy (entry : String × Toml.Value) : List (String × Toml.Value) :=
  if entry.1 = "assetman" then
    match entry.2 with
    | .table inner => inner
    | _ => [entry]
  else [entry]

/-- All that a document gives, at the top and in an `assetman` table. -/
def given (entries : List (String × Toml.Value)) : List (String × Toml.Value) :=
  entries.flatMap givenBy

theorem lookup_eq_some_iff (hkeys : (entries.map Prod.fst).Nodup) :
    entries.lookup name = some value ↔ (name, value) ∈ entries := by
  rw [List.lookup_eq_some_iff]
  constructor
  · rintro ⟨before, after, rfl, -⟩
    exact List.mem_append_right _ List.mem_cons_self
  · intro h
    obtain ⟨before, after, rfl⟩ := List.append_of_mem h
    refine ⟨before, after, rfl, fun entry hentry => ?_⟩
    rw [List.map_append] at hkeys
    have hne := (List.nodup_append.mp hkeys).2.2 entry.1 (List.mem_map_of_mem hentry) name List.mem_cons_self
    simpa using Ne.symm hne

theorem given_of_no_assetman (h : entries.lookup "assetman" = none) : given entries = entries := by
  have hself : ∀ entry ∈ entries, givenBy entry = [entry] := by
    intro entry hentry
    have hname := List.lookup_eq_none_iff.mp h entry hentry
    exact if_neg fun heq => by simp [heq] at hname
  rw [given, List.flatMap_congr hself, List.flatMap_singleton']

/-- What else stands in a document with an `assetman` table is given beside the entries of that. -/
theorem mem_given_iff (hkeys : (entries.map Prod.fst).Nodup)
    (htable : entries.lookup "assetman" = some (.table inner)) {entry : String × Toml.Value} :
    entry ∈ given entries ↔ entry ∈ inner ∨ entry ∈ entries ∧ entry.1 ≠ "assetman" := by
  have htable' := (lookup_eq_some_iff hkeys).mp htable
  rw [given, List.mem_flatMap]
  constructor
  · rintro ⟨⟨name, value⟩, hfirst, hentry⟩
    by_cases hname : name = "assetman"
    · subst hname
      cases htable.symm.trans ((lookup_eq_some_iff hkeys).mpr hfirst)
      exact .inl hentry
    · rw [givenBy, if_neg hname, List.mem_singleton] at hentry
      subst hentry
      exact .inr ⟨hfirst, hname⟩
  · rintro (hentry | ⟨hentry, hname⟩)
    · exact ⟨_, htable', hentry⟩
    · exact ⟨entry, hentry, by rw [givenBy, if_neg hname]; exact List.mem_singleton_self entry⟩

/-- Beside an `assetman` table what else is given is held only by chance. -/
theorem override_given_table_iff (hkeys : (entries.map Prod.fst).Nodup)
    (htable : entries.lookup "assetman" = some (.table inner)) (h : Override {} inner s) :
    Override {} (given entries) s ↔ ∀ entry ∈ entries, entry.1 ≠ "assetman" → s.Holds entry := by
  have hmem {entry : String × Toml.Value} := @mem_given_iff _ _ hkeys htable entry
  constructor
  · exact fun hgiven entry hentry hname => hgiven.holds entry (hmem.mpr (.inr ⟨hentry, hname⟩))
  · intro hothers
    constructor
    · intro entry hentry
      rcases hmem.mp hentry with hinner | ⟨hentry, hname⟩
      · exact h.holds entry hinner
      · exact hothers entry hentry hname
    · intro key hkey
      refine h.kept key fun hinner => hkey ?_
      obtain ⟨entry, hentry, hname⟩ := List.mem_map.mp hinner
      exact List.mem_map.mpr ⟨entry, hmem.mpr (.inl hentry), hname⟩

/-- The `assetman` entry itself is no setting. -/
theorem not_override_given (hkeys : (entries.map Prod.fst).Nodup)
    (hlookup : entries.lookup "assetman" = some value) (hvalue : ∀ inner, value ≠ .table inner) : ¬ Override {} (given entries) s := by
  intro h
  have hgiven : ("assetman", value) ∈ given entries := by
    refine List.mem_flatMap.mpr ⟨_, (lookup_eq_some_iff hkeys).mp hlookup, ?_⟩
    rw [givenBy, if_pos rfl]
    split
    · exact absurd ‹_› (hvalue _)
    · exact List.mem_singleton_self _
  obtain ⟨key, text, hname, -⟩ := h.holds _ hgiven
  exact key.name_ne_assetman hname.symm

/-- The settings are all that a document gives, if it has no `assetman` entry, or an `assetman` table and
beside that nothing which they do not hold anyway. -/
theorem override_given_iff (hkeys : (entries.map Prod.fst).Nodup) (hcounted : counted? entries = some part)
    (h : Override {} part s) : Override {} (given entries) s ↔
      ∀ value, entries.lookup "assetman" = some value → (∃ inner, value = .table inner) ∧
        ∀ entry ∈ entries, entry.1 ≠ "assetman" → s.Holds entry := by
  rw [counted?] at hcounted
  cases hlookup : entries.lookup "assetman" with
  | none =>
      rw [hlookup] at hcounted
      cases hcounted
      rw [given_of_no_assetman hlookup]
      exact ⟨fun _ _ hvalue => (by cases hvalue), fun _ => h⟩
  | some value =>
      simp only [Option.some.injEq, forall_eq']
      by_cases htable : ∃ inner, value = .table inner
      · obtain ⟨inner, rfl⟩ := htable
        rw [hlookup] at hcounted
        cases hcounted
        rw [override_given_table_iff hkeys hlookup h]
        exact ⟨fun hothers => ⟨⟨_, rfl⟩, hothers⟩, And.right⟩
      · have hvalue : ∀ inner, value ≠ .table inner := fun inner heq => htable ⟨inner, heq⟩
        exact ⟨fun hgiven => absurd hgiven (not_override_given hkeys hlookup hvalue),
          fun hrest => absurd hrest.1 htable⟩

theorem ofDocument_eq_ok_iff (hkeyed : (Toml.Value.table entries).Keyed) :
    ofDocument (.table entries) = .ok s ↔ ∃ part, counted? entries = some part ∧ Override {} part s := by
  have hkeyed' : ((entries.lookup "assetman").getD (.table entries)).Keyed := by
    cases hlookup : entries.lookup "assetman" with
    | none => exact hkeyed
    | some value =>
        have hkeys := Toml.Value.keyed_table_iff.mp hkeyed
        exact hkeys.2 _ ((lookup_eq_some_iff hkeys.1).mp hlookup)
  exact ofValue_eq_ok_iff hkeyed'

theorem read_eq_ok_iff : Settings.read path source = .ok s ↔ ∃ entries part,
    Toml.parse source = some (.table entries) ∧ counted? entries = some part ∧ Override {} part s ∧
      s.blankName? = none := by
  rw [Settings.read]
  cases hparse : Toml.parse source with
  | none => simp
  | some document =>
      rcases Toml.table_or_moment_of_parse hparse with ⟨entries, rfl⟩ | ⟨text, rfl⟩
      · have hdocument {s : Settings} := @ofDocument_eq_ok_iff s entries (Toml.keyed_of_parse hparse)
        constructor
        · intro h
          dsimp only at h
          split at h
          · cases h
          · rename_i t ht
            split at h
            · cases h
            · rename_i hblank
              cases h
              obtain ⟨part, hpart, h⟩ := hdocument.mp ht
              exact ⟨entries, part, rfl, hpart, h, hblank⟩
        · rintro ⟨_, part, ⟨⟩, hpart, h, hblank⟩
          dsimp only
          rw [hdocument.mpr ⟨part, hpart, h⟩]
          dsimp only
          rw [hblank]
      · simp [ofDocument, ofValue]

end Settings

/-- A settings file is accepted if it is a table, the entries that count are settings with texts, and no
file name is blank. -/
theorem loadSettings_eq_ok_iff {w : Workspace} {srcRoot path : String} {s : Settings} :
    loadSettings w srcRoot = .ok ⟨s, some path⟩ ↔ path = Path.below srcRoot settingsFileName ∧
      ∃ source entries part, w.readText path = .ok source ∧ Toml.parse source = some (.table entries) ∧
        Settings.counted? entries = some part ∧ Settings.Override {} part s ∧ s.blankName? = none := by
  rw [loadSettings]
  constructor
  · intro h
    split_ifs at h with hfile
    · split at h
      · cases h
      · rename_i source hread
        obtain ⟨t, ht, h⟩ := bind_eq_ok_iff.mp h
        cases h
        obtain ⟨entries, part, hread'⟩ := Settings.read_eq_ok_iff.mp ht
        exact ⟨rfl, source, entries, part, hread, hread'⟩
    · cases h
  · rintro ⟨rfl, source, entries, part, hread, hread'⟩
    obtain ⟨bytes, hbytes, -⟩ := bind_eq_ok_iff.mp hread
    rw [if_neg (not_not_intro (Workspace.isFile_iff_readBytes.mpr ⟨bytes, hbytes⟩)), hread]
    exact bind_eq_ok_iff.mpr ⟨s, Settings.read_eq_ok_iff.mpr ⟨entries, part, hread'⟩, rfl⟩

/-- Settings that are read from a file are those among the entries that count, and the defaults otherwise.
They are all that the file gives exactly if it has no `assetman` entry, or an `assetman` table and beside
that nothing which they do not hold anyway. -/
theorem loadSettings_given_iff {w : Workspace} {srcRoot path : String} {s : Settings}
    (hload : loadSettings w srcRoot = .ok ⟨s, some path⟩) :
    ∃ source entries part, w.readText path = .ok source ∧ Toml.parse source = some (.table entries) ∧
      Settings.counted? entries = some part ∧ Settings.Override {} part s ∧
      (Settings.Override {} (Settings.given entries) s ↔
        ∀ value, entries.lookup "assetman" = some value → (∃ inner, value = .table inner) ∧
          ∀ entry ∈ entries, entry.1 ≠ "assetman" → s.Holds entry) := by
  obtain ⟨-, source, entries, part, hread, hparse, hcounted, h, -⟩ := loadSettings_eq_ok_iff.mp hload
  have hkeys := (Toml.Value.keyed_table_iff.mp (Toml.keyed_of_parse hparse)).1
  exact ⟨source, entries, part, hread, hparse, hcounted, h, Settings.override_given_iff hkeys hcounted h⟩

/-- A source directory with a settings file in it. -/
def settingsWorkspace (source : String) : Workspace :=
  ⟨.dir [("src", .dir [("assetman.toml", .file source.toUTF8)])], []⟩

theorem readText_settings (source : String) :
    (settingsWorkspace source).readText "src/assetman.toml" = .ok source := by
  have hname : IsEntryName "src" ∧ IsEntryName "assetman.toml" := by decide +kernel
  have hroute : Route.parse "src/assetman.toml" = .ok ⟨false, ["src", "assetman.toml"], false⟩ := rfl
  have hlocate : (settingsWorkspace source).locate "src/assetman.toml" =
      .ok ⟨["src", "assetman.toml"], 40, Nat.le_refl 40⟩ := by
    rw [Workspace.locate, hroute]
    refine Node.follow_eq_ok_iff.mpr (.down rfl hname.1.toIsPlain rfl (fun _ => Node.Part.noConfusion) ?_)
    exact .down rfl hname.2.toIsPlain rfl (fun _ => Node.Part.noConfusion) (.here _ _)
  exact Workspace.readText_of_readBytes (Workspace.readBytes_eq_ok_iff.mpr ⟨_, hlocate, rfl⟩)

theorem loadSettings_settings {source : String} {entries part : List (String × Toml.Value)} {s : Settings}
    (hparse : Toml.parse source = some (.table entries)) (hcounted : Settings.counted? entries = some part)
    (hkeys : (part.map Prod.fst).Nodup) (hset : Settings.setAll {} part = .ok s)
    (hblank : s.blankName? = none) :
    loadSettings (settingsWorkspace source) "src" = .ok ⟨s, some "src/assetman.toml"⟩ :=
  loadSettings_eq_ok_iff.mpr ⟨by decide, source, entries, part, readText_settings source, hparse, hcounted,
    (Settings.setAll_eq_ok_iff hkeys).mp hset, hblank⟩

/-- A setting in an `assetman` table that stands alone. -/
theorem loadSettings_given_iff_nested : ∃ entries,
    Toml.parse "[assetman]\nfile_list = '.assets'\n" = some (.table entries) ∧
      Settings.Override {} (Settings.given entries) { fileList := ".assets" } := by
  have hparse : Toml.parse "[assetman]\nfile_list = '.assets'\n" =
      some (.table [("assetman", .table [("file_list", .string ".assets")])]) := by
    cbv
  have hload : loadSettings (settingsWorkspace "[assetman]\nfile_list = '.assets'\n") "src" =
      .ok ⟨{ fileList := ".assets" }, some "src/assetman.toml"⟩ :=
    loadSettings_settings hparse rfl (by decide) rfl (by decide)
  obtain ⟨source, entries, part, hread, hparse', -, -, hiff⟩ := loadSettings_given_iff hload
  cases (readText_settings _).symm.trans hread
  cases hparse.symm.trans hparse'
  refine ⟨_, hparse, hiff.mpr fun value hvalue => ?_⟩
  cases hvalue
  refine ⟨⟨_, rfl⟩, fun entry hentry hname => ?_⟩
  exact absurd (congrArg Prod.fst (List.mem_singleton.mp hentry)) hname

/-- A misspelt key beside an empty `assetman` table: it is no setting, and the file is accepted. -/
theorem loadSettings_misspelt : ∃ entries,
    Toml.parse "scirpt = 'typo.js'\n[assetman]\n" = some (.table entries) ∧
      ("scirpt", .string "typo.js") ∈ entries ∧ "scirpt" ≠ "assetman" ∧
      (∀ key : Settings.Key, key.name ≠ "scirpt") ∧
      loadSettings (settingsWorkspace "scirpt = 'typo.js'\n[assetman]\n") "src" =
        .ok ⟨{}, some "src/assetman.toml"⟩ := by
  have hparse : Toml.parse "scirpt = 'typo.js'\n[assetman]\n" =
      some (.table [("scirpt", .string "typo.js"), ("assetman", .table [])]) := by
    cbv
  refine ⟨_, hparse, List.mem_cons_self, by decide, fun key => ?_, ?_⟩
  · cases key <;> decide
  · exact loadSettings_settings hparse rfl (by decide) rfl (by decide)

end AssetPipeline
