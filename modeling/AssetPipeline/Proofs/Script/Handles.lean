import AssetPipeline.Proofs.Outcome
import AssetPipeline.Script.Evaluation

/-! Handles and what they name. A verb adds a declaration at the end of those of its kind, and a method
call replaces one by what the call makes of it, so that a handle which names something names the same
thing from then on. -/

namespace AssetPipeline

namespace Script

/-- A handle: the verb that has made it, and its place among those of that verb. -/
structure Handle where
  verb : Verb
  index : Nat
  deriving DecidableEq, Repr

namespace Value

/-- The handle that a value is. -/
def handle? : Value → Option Handle
  | rule index => some ⟨.rule, index⟩
  | single index => some ⟨.single, index⟩
  | bundle index => some ⟨.bundle, index⟩
  | _ => none

mutual

/-- The handles in a value, those in lists included. -/
def handles : Value → List Handle
  | rule index => [⟨.rule, index⟩]
  | single index => [⟨.single, index⟩]
  | bundle index => [⟨.bundle, index⟩]
  | list items => handlesOfAll items
  | string _ => []
  | number _ => []
  | boolean _ => []

def handlesOfAll : List Value → List Handle
  | [] => []
  | value :: values => handles value ++ handlesOfAll values

end

theorem handles_of_handle? {value : Value} {handle : Handle} (h : value.handle? = some handle) :
    value.handles = [handle] := by
  cases value <;> cases h <;> rfl

/-- A sum is a number or a text. -/
theorem handles_of_add {left right value : Value} (h : left.add right = .ok value) :
    value.handles = [] := by
  unfold add at h
  split at h
  · cases h
    rfl
  · split at h <;> cases h
    rfl
  · split at h <;> cases h
    rfl
  · cases h

end Value

/-- The handles in bound values. -/
def Bindings.handles (bindings : Bindings) : List Handle :=
  bindings.flatMap (·.2.handles)

theorem Bindings.handles_subset {bindings : Bindings} {name : String} {value : Value}
    (h : bindings.find name = .ok value) : value.handles ⊆ bindings.handles := by
  rw [find] at h
  cases hlookup : bindings.lookup name with
  | none =>
      rw [hlookup] at h
      cases hverb : Verb.ofName? name <;> rw [hverb] at h <;> cases h
  | some found =>
      rw [hlookup] at h
      cases h
      obtain ⟨front, back, rfl, -⟩ := List.lookup_eq_some_iff.mp hlookup
      exact fun handle hmem => List.mem_flatMap.mpr ⟨(name, value), by simp, hmem⟩

end Script

open Script (Handle Problem Value Verb callMethod updateAt)

/-- A declaration of any kind. -/
inductive Declared where
  | rule (r : RuleDecl)
  | single (s : Single)
  | bundle (b : Bundle)

namespace Declared

def verb : Declared → Verb
  | rule _ => .rule
  | single _ => .single
  | bundle _ => .bundle

/-- What it has been declared with: the name of a rule, the pattern of a builder. -/
def text : Declared → String
  | rule r => r.name
  | single s => s.pattern
  | bundle b => b.pattern

/-- A declaration that no method has been called on. -/
def fresh (text : String) : Verb → Declared
  | .rule => rule { name := text }
  | .single => single { pattern := text }
  | .bundle => bundle { pattern := text }

/-- The declaration after a method call. -/
def call (x : Declared) (method : String) (args : List Value) : Except Problem Declared :=
  match x with
  | rule r => (r.call method args).map rule
  | single s => (s.call method args).map single
  | bundle b => (b.call method args).map bundle

end Declared

theorem RuleDecl.name_of_call {r r' : RuleDecl} {method : String} {args : List Value}
    (h : r.call method args = .ok r') : r'.name = r.name := by
  unfold RuleDecl.call at h
  split at h
  · obtain ⟨command, -, h⟩ := bind_eq_ok_iff.mp h
    cases h
    rfl
  · cases h

theorem Single.pattern_of_call {s s' : Single} {method : String} {args : List Value}
    (h : s.call method args = .ok s') : s'.pattern = s.pattern := by
  unfold Single.call at h
  split at h
  case h_6 => cases h
  all_goals
    obtain ⟨value, -, h⟩ := bind_eq_ok_iff.mp h
    cases h
    rfl

theorem Bundle.pattern_of_call {b b' : Bundle} {method : String} {args : List Value}
    (h : b.call method args = .ok b') : b'.pattern = b.pattern := by
  unfold Bundle.call at h
  split at h
  case h_5 => cases h
  all_goals
    obtain ⟨value, -, h⟩ := bind_eq_ok_iff.mp h
    cases h
    rfl

@[simp] theorem Declared.verb_fresh (text : String) (verb : Verb) : (fresh text verb).verb = verb := by
  cases verb <;> rfl

@[simp] theorem Declared.text_fresh (text : String) (verb : Verb) : (fresh text verb).text = text := by
  cases verb <;> rfl

/-- A method call fills in a declaration and makes no other of it. -/
theorem Declared.call_keeps {x x' : Declared} {method : String} {args : List Value}
    (h : x.call method args = .ok x') : x'.verb = x.verb ∧ x'.text = x.text := by
  cases x with
  | rule r =>
      obtain ⟨r', hr, rfl⟩ := map_eq_ok_iff.mp h
      exact ⟨rfl, RuleDecl.name_of_call hr⟩
  | single s =>
      obtain ⟨s', hs, rfl⟩ := map_eq_ok_iff.mp h
      exact ⟨rfl, Single.pattern_of_call hs⟩
  | bundle b =>
      obtain ⟨b', hb, rfl⟩ := map_eq_ok_iff.mp h
      exact ⟨rfl, Bundle.pattern_of_call hb⟩

section Lists

variable {α β ε : Type} {items : List α} {item : α} {index : Nat}

theorem getElem?_concat (items : List α) (item : α) (index : Nat) :
    (items ++ [item])[index]? = if index = items.length then some item else items[index]? := by
  rcases Nat.lt_trichotomy index items.length with hlt | rfl | hgt
  · rw [List.getElem?_append_left hlt, if_neg (Nat.ne_of_lt hlt)]
  · rw [List.getElem?_concat_length, if_pos rfl]
  · have hlength : (items ++ [item]).length ≤ index := by
      rw [List.length_append, List.length_singleton]
      exact hgt
    rw [List.getElem?_eq_none hlength, List.getElem?_eq_none (Nat.le_of_lt hgt),
      if_neg (Nat.ne_of_gt hgt)]

theorem getElem?_set_of_some (h : items[index]? = some item) (item' : α) (other : Nat) :
    (items.set index item')[other]? = if other = index then some item' else items[other]? := by
  obtain ⟨hlt, -⟩ := List.getElem?_eq_some_iff.mp h
  rw [List.getElem?_set, if_pos hlt]
  exact if_congr eq_comm rfl rfl

theorem map_set_of_some {f : α → β} {item' : α} (h : items[index]? = some item)
    (hf : f item' = f item) : (items.set index item').map f = items.map f := by
  obtain ⟨hlt, rfl⟩ := List.getElem?_eq_some_iff.mp h
  rw [List.map_set, hf, ← List.getElem_map f, List.set_getElem_self]
  rwa [List.length_map]

theorem Script.updateAt_eq {f : α → Except ε α} (h : items[index]? = some item) :
    updateAt f items index = (f item).map (items.set index) := by
  induction items generalizing index with
  | nil => cases h
  | cons head items ih =>
      cases index with
      | zero =>
          cases h
          rw [updateAt]
          cases f item <;> rfl
      | succ index =>
          rw [updateAt, ih h]
          cases f item <;> rfl

end Lists

namespace Declarations

/-- How many declarations a verb has made. -/
def count (d : Declarations) : Verb → Nat
  | .rule => d.rules.length
  | .single => d.singles.length
  | .bundle => d.bundles.length

/-- The texts that declarations have been made with, in the order of the declarations. -/
def texts (d : Declarations) : Verb → List String
  | .rule => d.rules.map (·.name)
  | .single => d.singles.map (·.pattern)
  | .bundle => d.bundles.map (·.pattern)

/-- What a handle names. -/
def at? (d : Declarations) (handle : Handle) : Option Declared :=
  match handle.verb with
  | .rule => d.rules[handle.index]?.map .rule
  | .single => d.singles[handle.index]?.map .single
  | .bundle => d.bundles[handle.index]?.map .bundle

/-- One more declaration, at the end of those of its kind. -/
def add (d : Declarations) : Declared → Declarations
  | .rule r => { d with rules := d.rules ++ [r] }
  | .single s => { d with singles := d.singles ++ [s] }
  | .bundle b => { d with bundles := d.bundles ++ [b] }

/-- A declaration in the place of the one of its kind at `index`. -/
def put (d : Declarations) (index : Nat) : Declared → Declarations
  | .rule r => { d with rules := d.rules.set index r }
  | .single s => { d with singles := d.singles.set index s }
  | .bundle b => { d with bundles := d.bundles.set index b }

variable {d d' d'' : Declarations} {handle : Handle} {x y : Declared} {index : Nat}

theorem count_eq_length_texts (verb : Verb) : d.count verb = (d.texts verb).length := by
  cases verb <;> exact (List.length_map _).symm

theorem at?_text (d : Declarations) (handle : Handle) :
    (d.at? handle).map Declared.text = (d.texts handle.verb)[handle.index]? := by
  obtain ⟨verb, index⟩ := handle
  cases verb <;> simp [at?, texts, Option.map_map, Function.comp_def, Declared.text]

theorem verb_of_at? (h : d.at? handle = some x) : x.verb = handle.verb := by
  obtain ⟨verb, index⟩ := handle
  cases verb <;> obtain ⟨item, -, rfl⟩ := Option.map_eq_some_iff.mp h <;> rfl

theorem exists_at? (h : handle.index < d.count handle.verb) : ∃ x, d.at? handle = some x := by
  have htext := at?_text d handle
  rw [count_eq_length_texts] at h
  rw [List.getElem?_eq_getElem h] at htext
  obtain ⟨x, hx, -⟩ := Option.map_eq_some_iff.mp htext
  exact ⟨x, hx⟩

theorem lt_count_of_at? (h : d.at? handle = some x) : handle.index < d.count handle.verb := by
  have htext := at?_text d handle
  rw [h, Option.map_some] at htext
  rw [count_eq_length_texts]
  exact (List.getElem?_eq_some_iff.mp htext.symm).1

/-! ### One more declaration -/

theorem texts_add (d : Declarations) (x : Declared) (verb : Verb) :
    (d.add x).texts verb = if verb = x.verb then d.texts verb ++ [x.text] else d.texts verb := by
  cases x <;> cases verb <;> simp [add, texts, Declared.verb, Declared.text]

theorem at?_add (d : Declarations) (x : Declared) (handle : Handle) :
    (d.add x).at? handle = if handle = ⟨x.verb, d.count x.verb⟩ then some x else d.at? handle := by
  obtain ⟨verb, index⟩ := handle
  cases x <;> cases verb <;> simp [add, at?, count, Declared.verb, getElem?_concat, apply_ite (Option.map _)]

/-- A verb adds a fresh declaration, and its value is the handle of it. -/
theorem declare_eq (verb : Verb) (text : String) (d : Declarations) :
    ∃ value, value.handle? = some ⟨verb, d.count verb⟩ ∧
      verb.declare text d = (value, d.add (.fresh text verb)) := by
  cases verb <;> exact ⟨_, rfl, rfl⟩

/-- The handle of a declaration that has just been added names it. -/
theorem lt_count_add_fresh (verb : Verb) (text : String) (d : Declarations) :
    d.count verb < (d.add (.fresh text verb)).count verb := by
  have hat := at?_add d (.fresh text verb) ⟨verb, d.count verb⟩
  rw [Declared.verb_fresh, if_pos rfl] at hat
  exact lt_count_of_at? hat

/-! ### A method call -/

theorem texts_put (h : d.at? handle = some y) (hverb : x.verb = y.verb) (htext : x.text = y.text) :
    (d.put handle.index x).texts = d.texts := by
  obtain ⟨verb, index⟩ := handle
  obtain rfl : x.verb = verb := hverb.trans (verb_of_at? h)
  funext verb
  cases x <;> obtain ⟨item, hitem, rfl⟩ := Option.map_eq_some_iff.mp h <;>
    cases verb <;> first | rfl | exact map_set_of_some hitem htext

theorem at?_put (h : d.at? handle = some y) (hverb : x.verb = y.verb) (other : Handle) :
    (d.put handle.index x).at? other = if other = handle then some x else d.at? other := by
  obtain ⟨verb, index⟩ := handle
  obtain rfl : x.verb = verb := hverb.trans (verb_of_at? h)
  obtain ⟨verb, place⟩ := other
  cases x <;> obtain ⟨item, hitem, rfl⟩ := Option.map_eq_some_iff.mp h <;>
    cases verb <;> simp [put, at?, Declared.verb, getElem?_set_of_some hitem, apply_ite (Option.map _)]

/-! ### Later declarations -/

/-- What the handles name is declared. -/
def Holds (d : Declarations) (handles : List Handle) : Prop :=
  ∀ handle ∈ handles, handle.index < d.count handle.verb

/-- What is declared in `d` is in its place in `d'`, with the name or the pattern it had. -/
def GrowsTo (d d' : Declarations) : Prop :=
  ∀ verb, d.texts verb <+: d'.texts verb

theorem GrowsTo.refl (d : Declarations) : d.GrowsTo d :=
  fun _ => List.prefix_rfl

theorem GrowsTo.trans (h : d.GrowsTo d') (h' : d'.GrowsTo d'') : d.GrowsTo d'' :=
  fun verb => (h verb).trans (h' verb)

theorem GrowsTo.holds (h : d.GrowsTo d') {handles : List Handle} (hd : d.Holds handles) :
    d'.Holds handles := by
  intro handle hmem
  have hlength := (h handle.verb).length_le
  rw [← count_eq_length_texts, ← count_eq_length_texts] at hlength
  exact Nat.lt_of_lt_of_le (hd handle hmem) hlength

theorem growsTo_add (d : Declarations) (x : Declared) : d.GrowsTo (d.add x) := by
  intro verb
  rw [texts_add]
  split_ifs
  · exact List.prefix_append _ _
  · exact List.prefix_rfl

theorem growsTo_put (h : d.at? handle = some x) {method : String} {args : List Value}
    (hcall : x.call method args = .ok y) : d.GrowsTo (d.put handle.index y) := by
  obtain ⟨hverb, htext⟩ := Declared.call_keeps hcall
  intro verb
  simp only [texts_put h hverb htext, List.prefix_rfl]

end Declarations

theorem Script.callMethod_of_at? {receiver : Value} {handle : Handle} {d : Declarations} {x : Declared}
    (hhandle : receiver.handle? = some handle) (hx : d.at? handle = some x) (method : String)
    (args : List Value) :
    callMethod receiver method args d =
      (x.call method args).map fun x' => (receiver, d.put handle.index x') := by
  cases receiver <;> cases hhandle <;> obtain ⟨item, hitem, rfl⟩ := Option.map_eq_some_iff.mp hx <;>
    rw [callMethod, updateAt_eq hitem, Declared.call]
  case rule => cases RuleDecl.call _ method args <;> rfl
  case single => cases Single.call _ method args <;> rfl
  case bundle => cases Bundle.call _ method args <;> rfl

theorem Script.callMethod_of_handle?_eq_none {receiver : Value} (h : receiver.handle? = none)
    (method : String) (args : List Value) (d : Declarations) :
    callMethod receiver method args d = .error (.noMethods receiver.type method) := by
  cases receiver <;> first | rfl | cases h

end AssetPipeline
