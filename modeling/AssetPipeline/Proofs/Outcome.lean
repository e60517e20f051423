import Mathlib.Data.List.Forall2

/-! Computations that may fail: what is known of the parts of one from its outcome. -/

namespace AssetPipeline

variable {ε ε' σ α β : Type}

theorem bind_eq_ok_iff {x : Except ε α} {f : α → Except ε β} {result : β} :
    x >>= f = .ok result ↔ ∃ a, x = .ok a ∧ f a = .ok result := by
  cases x with
  | error error =>
      constructor
      · intro h
        cases h
      · rintro ⟨a, h, -⟩
        cases h
  | ok a =>
      constructor
      · exact fun h => ⟨a, rfl, h⟩
      · rintro ⟨a', h, hf⟩
        cases h
        exact hf

theorem bind_eq_error_iff {x : Except ε α} {f : α → Except ε β} {error : ε} :
    x >>= f = .error error ↔ x = .error error ∨ ∃ a, x = .ok a ∧ f a = .error error := by
  cases x with
  | error error' =>
      constructor
      · intro h
        cases h
        exact Or.inl rfl
      · rintro (h | ⟨a, h, -⟩)
        · cases h
          rfl
        · cases h
  | ok a =>
      constructor
      · exact fun h => Or.inr ⟨a, rfl, h⟩
      · rintro (h | ⟨a', h, hf⟩)
        · cases h
        · cases h
          exact hf

theorem exists_ok_of_toOption_map {x : Except ε α} {f : α → β} {b : β}
    (h : x.toOption.map f = some b) : ∃ a, x = .ok a ∧ f a = b := by
  cases x with
  | error error => cases h
  | ok a => exact ⟨a, rfl, Option.some.inj h⟩

theorem map_bind {γ : Type} {x : Except ε α} {f : α → Except ε β} {p : β → γ}
    {g : α → Except ε γ} (h : ∀ a, (f a).map p = g a) : (x >>= f).map p = x >>= g := by
  cases x with
  | error error => rfl
  | ok a => exact h a

theorem map_bind_map {γ δ : Type} {x : Except ε α} {f : α → Except ε β} {p : β → γ} {q : α → δ}
    {g : δ → Except ε γ} (h : ∀ a, (f a).map p = g (q a)) : (x >>= f).map p = x.map q >>= g := by
  cases x with
  | error error => rfl
  | ok a => exact h a

theorem map_eq_ok_iff {x : Except ε α} {f : α → β} {b : β} :
    x.map f = .ok b ↔ ∃ a, x = .ok a ∧ f a = b := by
  cases x <;> simp [Except.map]

theorem mapError_eq_ok_iff {x : Except ε α} {f : ε → ε'} {a : α} :
    x.mapError f = .ok a ↔ x = .ok a := by
  cases x <;> simp [Except.mapError]

theorem mapError_eq_error_iff {x : Except ε α} {f : ε → ε'} {error : ε'} :
    x.mapError f = .error error ↔ ∃ cause, x = .error cause ∧ f cause = error := by
  cases x <;> simp [Except.mapError]

/-- What every step keeps that succeeds, a sequence of steps keeps that succeeds. -/
theorem foldlM_keeps {step : σ → α → Except ε σ} {P : σ → Prop} {items : List α}
    (hstep : ∀ x ∈ items, ∀ s s', P s → step s x = .ok s' → P s') {s s' : σ}
    (hs : P s) (h : items.foldlM step s = .ok s') : P s' := by
  induction items generalizing s with
  | nil =>
      cases h
      exact hs
  | cons x items ih =>
      rw [List.foldlM_cons, bind_eq_ok_iff] at h
      obtain ⟨next, hx, h⟩ := h
      rw [List.forall_mem_cons] at hstep
      exact ih hstep.2 (hstep.1 s next hs hx) h

/-- A sequence of steps that fails does so at one of its items, in a state with what the steps before
it keep. -/
theorem exists_of_foldlM_error {step : σ → α → Except ε σ} {P : σ → Prop} {items : List α}
    (hstep : ∀ x ∈ items, ∀ s s', P s → step s x = .ok s' → P s') {s : σ} (hs : P s) {error : ε}
    (h : items.foldlM step s = .error error) : ∃ x ∈ items, ∃ s, P s ∧ step s x = .error error := by
  induction items generalizing s with
  | nil => cases h
  | cons x items ih =>
      rw [List.forall_mem_cons] at hstep
      rw [List.foldlM_cons, bind_eq_error_iff] at h
      rcases h with h | ⟨next, hx, h⟩
      · exact ⟨x, List.mem_cons_self, s, hs, h⟩
      · obtain ⟨y, hy, found⟩ := ih hstep.2 (hstep.1 s next hs hx) h
        exact ⟨y, List.mem_cons_of_mem _ hy, found⟩

/-- What every step does to one part of the state, a sequence of steps does item by item. -/
theorem foldlM_view (view : σ → β) {step : σ → α → Except ε σ} {next : β → α → β}
    (hstep : ∀ s x s', step s x = .ok s' → view s' = next (view s) x) {items : List α} {s s' : σ}
    (h : items.foldlM step s = .ok s') : view s' = items.foldl next (view s) := by
  induction items generalizing s with
  | nil =>
      cases h
      rfl
  | cons x items ih =>
      obtain ⟨s₁, hx, h⟩ := bind_eq_ok_iff.mp h
      rw [ih h, hstep s x s₁ hx, List.foldl_cons]

theorem foldlM_congr {step step' : σ → α → Except ε σ} {items : List α}
    (h : ∀ x ∈ items, ∀ state, step state x = step' state x) (state : σ) :
    items.foldlM step state = items.foldlM step' state := by
  induction items generalizing state with
  | nil => rfl
  | cons x items ih =>
      rw [List.forall_mem_cons] at h
      rw [List.foldlM_cons, List.foldlM_cons, h.1]
      exact bind_congr fun next => ih h.2 next

/-- Each of the results belongs to one of the items. -/
theorem exists_of_forall₂ {R : α → β → Prop} {items : List α} {results : List β}
    (h : List.Forall₂ R items results) {y : β} (hy : y ∈ results) : ∃ x ∈ items, R x y := by
  induction h with
  | nil => cases hy
  | cons hxy _ ih =>
      rcases List.mem_cons.mp hy with rfl | hy
      · exact ⟨_, List.mem_cons_self, hxy⟩
      · obtain ⟨x, hx, hxy⟩ := ih hy
        exact ⟨x, List.mem_cons_of_mem _ hx, hxy⟩

/-- Results that are replaced one by one. -/
theorem exists_forall₂ {α β γ : Type} {R : α → β → Prop} {R' : α → γ → Prop} {S : β → γ → Prop}
    {items : List α} {results : List β} (h : List.Forall₂ R items results)
    (hstep : ∀ x ∈ items, ∀ y, R x y → ∃ z, R' x z ∧ S y z) :
    ∃ results', List.Forall₂ R' items results' ∧ List.Forall₂ S results results' := by
  induction h with
  | nil => exact ⟨[], .nil, .nil⟩
  | cons hxy _ ih =>
      rw [List.forall_mem_cons] at hstep
      obtain ⟨z, hz, hyz⟩ := hstep.1 _ hxy
      obtain ⟨results', hR', hS⟩ := ih hstep.2
      exact ⟨z :: results', .cons hz hR', .cons hyz hS⟩

theorem mapM_eq_ok_iff {f : α → Except ε β} {items : List α} {results : List β} :
    items.mapM f = .ok results ↔ List.Forall₂ (fun x y => f x = .ok y) items results := by
  induction items generalizing results with
  | nil =>
      rw [List.mapM_nil, List.forall₂_nil_left_iff]
      exact ⟨fun h => (Except.ok.inj h).symm, fun h => h ▸ rfl⟩
  | cons x items ih =>
      rw [List.mapM_cons, List.forall₂_cons_left_iff, bind_eq_ok_iff]
      constructor
      · rintro ⟨y, hy, h⟩
        obtain ⟨ys, hys, h⟩ := bind_eq_ok_iff.mp h
        cases h
        exact ⟨y, ys, hy, ih.mp hys, rfl⟩
      · rintro ⟨y, ys, hy, hys, rfl⟩
        exact ⟨y, hy, bind_eq_ok_iff.mpr ⟨ys, ih.mpr hys, rfl⟩⟩

/-- A test that may fail, as a test that fails nowhere. -/
def passes (test : α → Except ε Bool) (x : α) : Bool :=
  (test x).toOption.getD false

theorem filterAuxM_eq_ok_iff {test : α → Except ε Bool} {items found results : List α} :
    items.filterAuxM test found = .ok results ↔
      (∀ x ∈ items, test x = .ok (passes test x)) ∧
        results = (items.filter (passes test)).reverse ++ found := by
  induction items generalizing found with
  | nil =>
      rw [List.filterAuxM]
      exact ⟨fun h => ⟨by simp, (Except.ok.inj h).symm⟩, fun h => by rw [h.2]; rfl⟩
  | cons x items ih =>
      rw [List.filterAuxM, bind_eq_ok_iff, List.forall_mem_cons]
      simp only [ih]
      constructor
      · rintro ⟨answer, hx, hitems, rfl⟩
        have hpasses : passes test x = answer := by
          rw [passes, hx]
          rfl
        rw [hpasses]
        refine ⟨⟨hx, hitems⟩, ?_⟩
        cases answer <;> simp [hpasses]
      · rintro ⟨⟨hx, hitems⟩, rfl⟩
        refine ⟨passes test x, hx, hitems, ?_⟩
        cases hpasses : passes test x <;> simp [hpasses]

theorem filterM_eq_ok_iff {test : α → Except ε Bool} {items results : List α} :
    items.filterM test = .ok results ↔
      (∀ x ∈ items, test x = .ok (passes test x)) ∧ results = items.filter (passes test) := by
  rw [List.filterM, bind_eq_ok_iff]
  simp only [filterAuxM_eq_ok_iff]
  constructor
  · rintro ⟨found, ⟨hitems, rfl⟩, h⟩
    cases h
    exact ⟨hitems, by simp⟩
  · rintro ⟨hitems, rfl⟩
    exact ⟨_, ⟨hitems, rfl⟩, by simp; rfl⟩

theorem exists_of_filterM_error {test : α → Except ε Bool} {items : List α} {error : ε}
    (h : items.filterM test = .error error) : ∃ x ∈ items, test x = .error error := by
  have haux : ∀ found, items.filterAuxM test found = .error error → ∃ x ∈ items, test x = .error error := by
    clear h
    induction items with
    | nil =>
        intro found h
        cases h
    | cons x items ih =>
        intro found h
        rw [List.filterAuxM, bind_eq_error_iff] at h
        rcases h with h | ⟨answer, -, h⟩
        · exact ⟨x, List.mem_cons_self, h⟩
        · obtain ⟨y, hy, found⟩ := ih _ h
          exact ⟨y, List.mem_cons_of_mem _ hy, found⟩
  rw [List.filterM, bind_eq_error_iff] at h
  rcases h with h | ⟨found, -, h⟩
  · exact haux [] h
  · cases h

end AssetPipeline
