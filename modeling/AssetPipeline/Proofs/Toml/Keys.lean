import AssetPipeline.Toml.Document
import Mathlib.Data.List.Nodup

/-! Keys of TOML tables. Whatever is added while a document is read, under headers, dotted keys or in inline
tables, no table ever has a key twice, and so none has in the value of the document. -/

namespace AssetPipeline.Toml

/-- Neither the value nor any value in it is a table that has a key twice. -/
inductive Value.Keyed : Value → Prop where
  | string (text : String) : Keyed (.string text)
  | integer (value : Int) : Keyed (.integer value)
  | float (value : Float) : Keyed (.float value)
  | boolean (value : Bool) : Keyed (.boolean value)
  | moment (text : String) : Keyed (.moment text)
  | array {items : List Value} (h : ∀ item ∈ items, Keyed item) : Keyed (.array items)
  | table {entries : List (String × Value)} (hkeys : (entries.map Prod.fst).Nodup)
    (h : ∀ entry ∈ entries, Keyed entry.2) : Keyed (.table entries)

theorem Value.keyed_array_iff {items : List Value} :
    (Value.array items).Keyed ↔ ∀ item ∈ items, item.Keyed := by
  constructor
  · intro h
    cases h with
    | array h => exact h
  · exact .array

theorem Value.keyed_table_iff {entries : List (String × Value)} :
    (Value.table entries).Keyed ↔ (entries.map Prod.fst).Nodup ∧ ∀ entry ∈ entries, entry.2.Keyed := by
  constructor
  · intro h
    cases h with
    | table hkeys h => exact ⟨hkeys, h⟩
  · exact fun h => .table h.1 h.2

/-! ### Tables while they are read -/

theorem entriesToValues_eq (entries : Entries) :
    entriesToValues entries = entries.map fun entry => (entry.1, entry.2.toValue) := by
  induction entries with
  | nil => rfl
  | cons entry entries ih => rw [entriesToValues, ih, List.map_cons]

theorem elementsToValues_eq (elements : List Entries) :
    elementsToValues elements = elements.map fun entries => .table (entriesToValues entries) := by
  induction elements with
  | nil => rfl
  | cons entries elements ih => rw [elementsToValues, ih, List.map_cons]

namespace Entries

variable {entries result inner : Entries} {elements : List Entries} {key : String} {item : Item}
  {kind : TableKind} {path : List String} {v : Value} {byDottedKey : Bool}

/-- No key is there twice, and none in what the items will be. -/
structure Keyed (entries : Entries) : Prop where
  nodup : (entries.map Prod.fst).Nodup
  items : ∀ entry ∈ entries, entry.2.toValue.Keyed

theorem keyed_nil : Keyed [] :=
  ⟨List.nodup_nil, List.forall_mem_nil _⟩

theorem keyed_table_iff : (Value.table (entriesToValues entries)).Keyed ↔ Keyed entries := by
  rw [Value.keyed_table_iff, entriesToValues_eq, List.map_map, List.forall_mem_map]
  exact ⟨fun h => ⟨h.1, h.2⟩, fun h => ⟨h.nodup, h.items⟩⟩

theorem toValue_table_keyed_iff : (Item.table kind entries).toValue.Keyed ↔ Keyed entries := by
  rw [Item.toValue, keyed_table_iff]

theorem toValue_tables_keyed_iff :
    (Item.tables elements).toValue.Keyed ↔ ∀ entries ∈ elements, Keyed entries := by
  rw [Item.toValue, elementsToValues_eq, Value.keyed_array_iff, List.forall_mem_map]
  simp only [keyed_table_iff]

theorem map_fst_put (key : String) (item : Item) (entries : Entries) :
    (put key item entries).map Prod.fst =
      if key ∈ entries.map Prod.fst then entries.map Prod.fst else entries.map Prod.fst ++ [key] := by
  induction entries with
  | nil => rfl
  | cons entry entries ih =>
      obtain ⟨other, old⟩ := entry
      rw [put]
      by_cases hother : other = key
      · simp [hother]
      · have hkey : key ∈ ((other, old) :: entries).map Prod.fst ↔ key ∈ entries.map Prod.fst := by
          simp [Ne.symm hother]
        rw [if_neg hother, List.map_cons, ih]
        simp only [hkey]
        split_ifs <;> rfl

theorem eq_or_mem_of_mem_put {entry : String × Item} (h : entry ∈ put key item entries) :
    entry.2 = item ∨ entry ∈ entries := by
  induction entries with
  | nil => exact .inl (by rw [List.mem_singleton.mp h])
  | cons first entries ih =>
      obtain ⟨other, old⟩ := first
      rw [put] at h
      split_ifs at h with hother
      · rcases List.mem_cons.mp h with rfl | h
        · exact .inl rfl
        · exact .inr (List.mem_cons_of_mem _ h)
      · rcases List.mem_cons.mp h with rfl | h
        · exact .inr List.mem_cons_self
        · exact (ih h).imp_right (List.mem_cons_of_mem _)

theorem Keyed.put (h : Keyed entries) (hitem : item.toValue.Keyed) : Keyed (put key item entries) := by
  constructor
  · rw [map_fst_put]
    split_ifs with hkey
    · exact h.nodup
    · exact List.Nodup.append h.nodup (List.nodup_singleton key) (by simpa using hkey)
  · intro entry hentry
    rcases eq_or_mem_of_mem_put hentry with heq | hentry
    · rw [heq]
      exact hitem
    · exact h.items entry hentry

theorem Keyed.filter (h : Keyed entries) (keep : String × Item → Bool) : Keyed (entries.filter keep) := by
  constructor
  · exact h.nodup.sublist (List.filter_sublist.map Prod.fst)
  · exact fun entry hentry => h.items entry (List.mem_of_mem_filter hentry)

theorem Keyed.lookup (h : Keyed entries) (hlookup : entries.lookup key = some item) :
    item.toValue.Keyed := by
  obtain ⟨before, after, rfl, -⟩ := List.lookup_eq_some_iff.mp hlookup
  exact h.items _ (List.mem_append_right _ List.mem_cons_self)

/-- What a change does at the end of a path decides, since all tables on the way keep their keys. -/
theorem Keyed.change {f : TableKind → Entries → Option Entries}
    (hf : ∀ kind inner result, Keyed inner → f kind inner = some result → Keyed result)
    (h : Keyed entries) (hchange : change byDottedKey f path kind entries = some result) : Keyed result := by
  induction path generalizing kind entries result with
  | nil => exact hf kind entries result h hchange
  | cons key path ih =>
      rw [Entries.change] at hchange
      split at hchange
      · obtain ⟨inner, hinner, hresult⟩ := Option.bind_eq_some_iff.mp hchange
        cases hresult
        exact h.put (toValue_table_keyed_iff.mpr (ih keyed_nil hinner))
      · cases hchange
      · rename_i kind' inner hlookup
        split_ifs at hchange
        obtain ⟨inner', hinner, hresult⟩ := Option.bind_eq_some_iff.mp hchange
        cases hresult
        have hkeyed := toValue_table_keyed_iff.mp (h.lookup hlookup)
        exact h.put (toValue_table_keyed_iff.mpr (ih hkeyed hinner))
      · rename_i elements hlookup
        obtain ⟨last, hlast, hchange⟩ := Option.bind_eq_some_iff.mp hchange
        obtain ⟨inner, hinner, hresult⟩ := Option.bind_eq_some_iff.mp hchange
        cases hresult
        have hkeyed := toValue_tables_keyed_iff.mp (h.lookup hlookup)
        refine h.put (toValue_tables_keyed_iff.mpr (List.forall_mem_append.mpr ⟨?_, ?_⟩))
        · exact fun entries hentries => hkeyed entries ((List.dropLast_sublist elements).subset hentries)
        · exact List.forall_mem_singleton.mpr (ih (hkeyed last (List.mem_of_getLast? hlast)) hinner)

theorem Keyed.addValue (h : Keyed entries) (hv : v.Keyed) (hadd : addValue path v entries = some result) :
    Keyed result := by
  obtain ⟨key, -, hadd⟩ := Option.bind_eq_some_iff.mp hadd
  refine h.change (fun kind inner result hinner hresult => ?_) hadd
  split_ifs at hresult
  cases hresult
  exact hinner.put hv

theorem Keyed.addTable (h : Keyed entries) (hadd : addTable path entries = some result) : Keyed result := by
  obtain ⟨key, -, hadd⟩ := Option.bind_eq_some_iff.mp hadd
  refine h.change (fun kind inner result hinner hresult => ?_) hadd
  split at hresult
  · cases hresult
    exact hinner.put (toValue_table_keyed_iff.mpr keyed_nil)
  · rename_i held hlookup
    cases hresult
    exact (hinner.filter _).put (toValue_table_keyed_iff.mpr
      (toValue_table_keyed_iff.mp (hinner.lookup hlookup)))
  · cases hresult

theorem Keyed.addElement (h : Keyed entries) (hadd : addElement path entries = some result) :
    Keyed result := by
  obtain ⟨key, -, hadd⟩ := Option.bind_eq_some_iff.mp hadd
  refine h.change (fun kind inner result hinner hresult => ?_) hadd
  split at hresult
  · cases hresult
    refine hinner.put (toValue_tables_keyed_iff.mpr ?_)
    exact List.forall_mem_singleton.mpr keyed_nil
  · rename_i elements hlookup
    cases hresult
    refine hinner.put (toValue_tables_keyed_iff.mpr (List.forall_mem_append.mpr ⟨?_, ?_⟩))
    · exact toValue_tables_keyed_iff.mp (hinner.lookup hlookup)
    · exact List.forall_mem_singleton.mpr keyed_nil
  · cases hresult

end Entries

/-! ### Reading -/

variable {text rest : Text} {v : Value}

namespace Scalars

theorem keyed_of_integer? {value : Int} (h : integer? value = some v) : v.Keyed := by
  rw [integer?] at h
  split_ifs at h
  cases h
  exact .integer value

theorem keyed_of_float? {negative : Bool} {digits fraction : List Char} {exponent : Int}
    (h : float? negative digits fraction exponent = some v) : v.Keyed := by
  rw [float?] at h
  split_ifs at h <;> cases h <;> exact .float _

theorem keyed_of_based? {base : Nat} {isDigit : Char → Bool} (h : based? base isDigit text = some (v, rest)) :
    v.Keyed := by
  obtain ⟨read, -, h⟩ := Option.bind_eq_some_iff.mp h
  obtain ⟨value, hvalue, h⟩ := Option.bind_eq_some_iff.mp h
  cases h
  exact keyed_of_integer? hvalue

theorem keyed_of_decimal? {negative : Bool} {digits : List Char}
    (h : decimal? negative digits text = some (v, rest)) : v.Keyed := by
  unfold decimal? at h
  split at h
  · obtain ⟨fraction, -, h⟩ := Option.bind_eq_some_iff.mp h
    obtain ⟨exponent, -, h⟩ := Option.bind_eq_some_iff.mp h
    obtain ⟨value, hvalue, h⟩ := Option.bind_eq_some_iff.mp h
    cases h
    exact keyed_of_float? hvalue
  · split_ifs at h
    · obtain ⟨exponent, -, h⟩ := Option.bind_eq_some_iff.mp h
      obtain ⟨value, hvalue, h⟩ := Option.bind_eq_some_iff.mp h
      cases h
      exact keyed_of_float? hvalue
    · obtain ⟨value, hvalue, h⟩ := Option.bind_eq_some_iff.mp h
      cases h
      exact keyed_of_integer? hvalue
  · obtain ⟨value, hvalue, h⟩ := Option.bind_eq_some_iff.mp h
    cases h
    exact keyed_of_integer? hvalue

theorem keyed_of_number? (h : number? text = some (v, rest)) : v.Keyed := by
  unfold number? at h
  split at h
  · exact keyed_of_based? h
  · exact keyed_of_based? h
  · exact keyed_of_based? h
  · dsimp only at h
    split at h
    · cases h
      exact .float _
    · cases h
      exact .float _
    · obtain ⟨digits, -, h⟩ := Option.bind_eq_some_iff.mp h
      exact keyed_of_decimal? h

theorem keyed_of_read (h : read text = some (v, rest)) : v.Keyed := by
  unfold read at h
  split at h
  · cases h
    exact .boolean true
  · cases h
    exact .boolean false
  · split at h
    · cases h
      exact .string _
    · rcases Option.or_eq_some_iff.mp h with h | ⟨-, h⟩
      · obtain ⟨written, -, h⟩ := Option.map_eq_some_iff.mp h
        cases h
        exact .moment _
      · exact keyed_of_number? h

end Scalars

/-- Nothing that is read in so many steps has a key twice. The readers call each other with one step fewer,
so the three are treated at once. -/
structure ReadsKeyed (steps : Nat) : Prop where
  value : ∀ {depth text v rest}, readValue steps depth text = some (v, rest) → v.Keyed
  items : ∀ {depth text items rest}, readItems steps depth text = some (items, rest) →
    ∀ item ∈ items, item.Keyed
  fields : ∀ {depth entries text entries' rest}, readFields steps depth entries text = some (entries', rest) →
    Entries.Keyed entries → Entries.Keyed entries'

namespace ReadsKeyed

variable {steps depth : Nat} {items : List Value} {entries entries' : Entries}

theorem zero : ReadsKeyed 0 := by
  refine ⟨fun h => ?_, fun h => ?_, fun h => ?_⟩
  · rw [readValue] at h
    cases h
  · rw [readItems] at h
    cases h
  · rw [readFields] at h
    cases h

theorem readValue (hless : ReadsKeyed steps) (h : readValue (steps + 1) depth text = some (v, rest)) :
    v.Keyed := by
  unfold Toml.readValue at h
  split at h
  · cases ‹steps + 1 = 0›
  · split_ifs at h
    obtain ⟨read, hread, h⟩ := Option.map_eq_some_iff.mp h
    cases h
    rename_i heq _
    cases heq
    exact .array (hless.items hread)
  · split_ifs at h
    rename_i heq _
    cases heq
    split at h
    · cases h
      exact Entries.keyed_table_iff.mpr Entries.keyed_nil
    · obtain ⟨read, hread, h⟩ := Option.bind_eq_some_iff.mp h
      cases h
      exact Entries.keyed_table_iff.mpr (hless.fields hread Entries.keyed_nil)
  · exact Scalars.keyed_of_read h

theorem readItems (hless : ReadsKeyed steps) (h : readItems (steps + 1) depth text = some (items, rest)) :
    ∀ item ∈ items, item.Keyed := by
  rw [Toml.readItems] at h
  split at h
  · cases h
    exact List.forall_mem_nil _
  · obtain ⟨⟨first, rest'⟩, hfirst, h⟩ := Option.bind_eq_some_iff.mp h
    dsimp only at h
    have hkeyed := hless.value hfirst
    split at h
    · obtain ⟨read, hread, h⟩ := Option.bind_eq_some_iff.mp h
      cases h
      exact List.forall_mem_cons.mpr ⟨hkeyed, hless.items hread⟩
    · cases h
      exact List.forall_mem_singleton.mpr hkeyed
    · cases h

theorem readFields (hless : ReadsKeyed steps) (hentries : entries.Keyed)
    (h : readFields (steps + 1) depth entries text = some (entries', rest)) : entries'.Keyed := by
  rw [Toml.readFields] at h
  obtain ⟨path, -, h⟩ := Option.bind_eq_some_iff.mp h
  obtain ⟨after, -, h⟩ := Option.bind_eq_some_iff.mp h
  obtain ⟨value, hvalue, h⟩ := Option.bind_eq_some_iff.mp h
  obtain ⟨added, hadded, h⟩ := Option.bind_eq_some_iff.mp h
  have hkeyed := hentries.addValue (hless.value hvalue) hadded
  split at h
  · exact hless.fields h hkeyed
  · cases h
    exact hkeyed
  · cases h

end ReadsKeyed

theorem readsKeyed (steps : Nat) : ReadsKeyed steps := by
  induction steps with
  | zero => exact .zero
  | succ steps ih => exact ⟨ih.readValue, ih.readItems, fun h hentries => ih.readFields hentries h⟩

namespace Progress

variable {p p' : Progress} {path : List String} {entries : Entries}

theorem keyed_of_addValue (h : p.entries.Keyed) (hv : v.Keyed) (hadd : p.addValue path v = some p') :
    p'.entries.Keyed := by
  obtain ⟨entries, hentries, hadd⟩ := Option.bind_eq_some_iff.mp hadd
  cases hadd
  exact h.change (fun _ _ _ hinner hresult => hinner.addValue hv hresult) hentries

theorem keyed_of_readLine (h : p.entries.Keyed) (hread : p.readLine text = some (p', rest)) :
    p'.entries.Keyed := by
  unfold readLine at hread
  split at hread
  · obtain ⟨path, -, hread⟩ := Option.bind_eq_some_iff.mp hread
    obtain ⟨after, -, hread⟩ := Option.bind_eq_some_iff.mp hread
    obtain ⟨entries, hentries, hread⟩ := Option.bind_eq_some_iff.mp hread
    obtain ⟨after, -, hread⟩ := Option.bind_eq_some_iff.mp hread
    cases hread
    exact h.addElement hentries
  · obtain ⟨path, -, hread⟩ := Option.bind_eq_some_iff.mp hread
    obtain ⟨after, -, hread⟩ := Option.bind_eq_some_iff.mp hread
    obtain ⟨entries, hentries, hread⟩ := Option.bind_eq_some_iff.mp hread
    obtain ⟨after, -, hread⟩ := Option.bind_eq_some_iff.mp hread
    cases hread
    exact h.addTable hentries
  · split at hread
    · cases hread
      exact h
    · obtain ⟨path, -, hread⟩ := Option.bind_eq_some_iff.mp hread
      obtain ⟨after, -, hread⟩ := Option.bind_eq_some_iff.mp hread
      obtain ⟨value, hvalue, hread⟩ := Option.bind_eq_some_iff.mp hread
      obtain ⟨added, hadded, hread⟩ := Option.bind_eq_some_iff.mp hread
      obtain ⟨after, -, hread⟩ := Option.bind_eq_some_iff.mp hread
      cases hread
      exact keyed_of_addValue h ((readsKeyed _).value hvalue) hadded

theorem keyed_of_readLines (bound : Nat) (h : p.entries.Keyed)
    (hread : readLines bound p text = some entries) : entries.Keyed := by
  induction bound generalizing p text with
  | zero =>
      cases text with
      | nil =>
          rw [readLines] at hread
          cases hread
          exact h
      | cons c text =>
          rw [readLines] at hread
          · cases hread
          · simp
  | succ bound ih =>
      cases text with
      | nil =>
          rw [readLines] at hread
          cases hread
          exact h
      | cons c text =>
          rw [readLines] at hread
          · obtain ⟨line, hline, hread⟩ := Option.bind_eq_some_iff.mp hread
            exact ih (keyed_of_readLine h hline) hread
          · simp

end Progress

/-! ### Documents -/

theorem map_fst_entriesWithMoments? {entries result : List (String × Value)}
    (h : entriesWithMoments? entries = some result) : result.map Prod.fst = entries.map Prod.fst := by
  induction entries generalizing result with
  | nil =>
      rw [entriesWithMoments?] at h
      cases h
      rfl
  | cons entry entries ih =>
      rw [entriesWithMoments?] at h
      obtain ⟨value, -, h⟩ := Option.bind_eq_some_iff.mp h
      obtain ⟨others, hothers, h⟩ := Option.bind_eq_some_iff.mp h
      cases h
      rw [List.map_cons, List.map_cons, ih hothers]

theorem keyed_of_entriesWithMoments? {entries result : List (String × Value)}
    (hentries : ∀ entry ∈ entries, ∀ v, entry.2.withMoments? = some v → v.Keyed)
    (h : entriesWithMoments? entries = some result) : ∀ entry ∈ result, entry.2.Keyed := by
  induction entries generalizing result with
  | nil =>
      cases h
      exact List.forall_mem_nil _
  | cons entry entries ih =>
      rw [List.forall_mem_cons] at hentries
      rw [entriesWithMoments?] at h
      obtain ⟨value, hvalue, h⟩ := Option.bind_eq_some_iff.mp h
      obtain ⟨others, hothers, h⟩ := Option.bind_eq_some_iff.mp h
      cases h
      exact List.forall_mem_cons.mpr ⟨hentries.1 value hvalue, ih hentries.2 hothers⟩

theorem keyed_of_itemsWithMoments? {items result : List Value}
    (hitems : ∀ item ∈ items, ∀ v, item.withMoments? = some v → v.Keyed)
    (h : itemsWithMoments? items = some result) : ∀ item ∈ result, item.Keyed := by
  induction items generalizing result with
  | nil =>
      cases h
      exact List.forall_mem_nil _
  | cons item items ih =>
      rw [List.forall_mem_cons] at hitems
      rw [itemsWithMoments?] at h
      obtain ⟨value, hvalue, h⟩ := Option.bind_eq_some_iff.mp h
      obtain ⟨others, hothers, h⟩ := Option.bind_eq_some_iff.mp h
      cases h
      exact List.forall_mem_cons.mpr ⟨hitems.1 value hvalue, ih hitems.2 hothers⟩

theorem Value.Keyed.withMoments? {result : Value} (hv : v.Keyed) (h : v.withMoments? = some result) :
    result.Keyed := by
  induction hv generalizing result with
  | array _ ih =>
      rw [Value.withMoments?] at h
      obtain ⟨items, hitems, h⟩ := Option.map_eq_some_iff.mp h
      cases h
      exact .array (keyed_of_itemsWithMoments? (fun item hitem _ => ih item hitem) hitems)
  | table hkeys _ ih =>
      rw [Value.withMoments?] at h
      split at h
      · obtain ⟨text, -, h⟩ := Option.map_eq_some_iff.mp h
        cases h
        exact .moment text
      · cases h
      · obtain ⟨entries, hentries, h⟩ := Option.map_eq_some_iff.mp h
        cases h
        refine .table ?_ (keyed_of_entriesWithMoments? (fun entry hentry _ => ih entry hentry) hentries)
        rw [map_fst_entriesWithMoments? hentries]
        exact hkeys
  | _ =>
      cases h
      constructor

/-- A document has no key twice, in whatever order its headers and dotted keys come. -/
theorem keyed_of_parse {source : String} {document : Value} (h : parse source = some document) :
    document.Keyed := by
  obtain ⟨entries, hentries, h⟩ := Option.bind_eq_some_iff.mp h
  have hkeyed := Progress.keyed_of_readLines _ Entries.keyed_nil hentries
  exact (Entries.keyed_table_iff.mpr hkeyed).withMoments? h

/-- A document is a table, or a moment if it is written as the table that stands for one. -/
theorem table_or_moment_of_parse {source : String} {document : Value} (h : parse source = some document) :
    (∃ entries, document = .table entries) ∨ ∃ text, document = .moment text := by
  obtain ⟨entries, -, h⟩ := Option.bind_eq_some_iff.mp h
  rw [Value.withMoments?] at h
  split at h
  · obtain ⟨text, -, h⟩ := Option.map_eq_some_iff.mp h
    exact .inr ⟨text, h.symm⟩
  · cases h
  · obtain ⟨entries', -, h⟩ := Option.map_eq_some_iff.mp h
    exact .inl ⟨entries', h.symm⟩

end AssetPipeline.Toml
