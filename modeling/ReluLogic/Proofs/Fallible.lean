import Mathlib

/-!
Computations that may fail. A sequence of them succeeds when each succeeds in turn.
-/

namespace ReluLogic

variable {ε α β : Type}

theorem bind_eq_ok {first : Except ε α} {next : α → Except ε β} {result : β} :
    (first >>= next) = .ok result ↔ ∃ middle, first = .ok middle ∧ next middle = .ok result := by
  cases first <;> simp [bind, Except.bind]

theorem bind_eq_error {first : Except ε α} {next : α → Except ε β} {error : ε} :
    first >>= next = .error error ↔ first = .error error ∨ ∃ value, first = .ok value ∧ next value = .error error := by
  cases first <;> simp [bind, Except.bind]

theorem map_eq_ok {first : Except ε α} {f : α → β} {result : β} :
    first.map f = .ok result ↔ ∃ middle, first = .ok middle ∧ f middle = result := by
  cases first <;> simp [Except.map]

theorem mapM_eq_ok {f : α → Except ε β} {items : List α} {results : List β} :
    items.mapM f = .ok results ↔ List.Forall₂ (fun item result => f item = .ok result) items results := by
  induction items generalizing results with
  | nil =>
      rw [List.mapM_nil, List.forall₂_nil_left_iff]
      exact ⟨fun h => (Except.ok.inj h).symm, fun h => h ▸ rfl⟩
  | cons item items ih =>
      simp only [List.mapM_cons, bind_eq_ok, List.forall₂_cons_left_iff]
      constructor
      · rintro ⟨first, hfirst, rest, hrest, heq⟩
        cases heq
        exact ⟨first, rest, hfirst, ih.mp hrest, rfl⟩
      · rintro ⟨first, rest, hfirst, hrest, rfl⟩
        exact ⟨first, hfirst, rest, ih.mpr hrest, rfl⟩

theorem exists_of_mem_mapM {f : α → Except ε β} {items : List α} {results : List β} {result : β}
    (h : items.mapM f = .ok results) (hmem : result ∈ results) : ∃ item ∈ items, f item = .ok result := by
  have hall := mapM_eq_ok.mp h
  obtain ⟨place, hplace, rfl⟩ := List.mem_iff_getElem.mp hmem
  have hitem : place < items.length := hall.length_eq.symm ▸ hplace
  exact ⟨items[place], List.getElem_mem hitem, hall.get hitem hplace⟩

/-- A list of computations keeps the places of its items. -/
theorem exists_getElem?_of_mapM {f : α → Except ε β} {items : List α} {results : List β} {place : Nat} {item : α}
    (h : items.mapM f = .ok results) (hitem : items[place]? = some item) :
    ∃ result, results[place]? = some result ∧ f item = .ok result := by
  have hall := mapM_eq_ok.mp h
  obtain ⟨hplace, rfl⟩ := List.getElem?_eq_some_iff.mp hitem
  have hplace' : place < results.length := hall.length_eq ▸ hplace
  exact ⟨results[place], List.getElem?_eq_getElem hplace', hall.get hplace hplace'⟩

theorem exists_mem_of_mapM {f : α → Except ε β} {items : List α} {results : List β} {item : α}
    (h : items.mapM f = .ok results) (hmem : item ∈ items) : ∃ result ∈ results, f item = .ok result := by
  obtain ⟨place, hplace⟩ := List.mem_iff_getElem?.mp hmem
  obtain ⟨result, hresult, hok⟩ := exists_getElem?_of_mapM h hplace
  exact ⟨result, List.mem_of_getElem? hresult, hok⟩

theorem mapM_congr_mem {f g : α → Except ε β} {items : List α} (h : ∀ item ∈ items, f item = g item) :
    items.mapM f = items.mapM g := by
  induction items with
  | nil => rfl
  | cons item items ih =>
      rw [List.mapM_cons, List.mapM_cons, h item List.mem_cons_self,
        ih fun other hother => h other (List.mem_cons_of_mem _ hother)]

theorem foldlM_congr_mem {f g : β → α → Except ε β} {items : List α}
    (h : ∀ item ∈ items, ∀ state, f state item = g state item) (state : β) :
    items.foldlM f state = items.foldlM g state := by
  induction items generalizing state with
  | nil => rfl
  | cons item items ih =>
      rw [List.foldlM_cons, List.foldlM_cons, h item List.mem_cons_self]
      exact bind_congr fun next => ih (fun other hother => h other (List.mem_cons_of_mem _ hother)) next

/-- A list of computations succeeds when each of them does. -/
theorem exists_mapM_eq_ok {f : α → Except ε β} {items : List α}
    (h : ∀ item ∈ items, ∃ result, f item = .ok result) : ∃ results, items.mapM f = .ok results := by
  induction items with
  | nil => exact ⟨[], rfl⟩
  | cons item items ih =>
      obtain ⟨first, hfirst⟩ := h item List.mem_cons_self
      obtain ⟨rest, hrest⟩ := ih fun other hother => h other (List.mem_cons_of_mem _ hother)
      exact ⟨first :: rest, mapM_eq_ok.mpr (.cons hfirst (mapM_eq_ok.mp hrest))⟩

/-- Every error of the computation has a property. -/
def FailsOnly (P : ε → Prop) (computation : Except ε α) : Prop :=
  ∀ error, computation = .error error → P error

section FailsOnly

variable {P Q : ε → Prop}

theorem failsOnly_ok (value : α) : FailsOnly P (.ok value) := by
  intro error h
  cases h

theorem failsOnly_error {error : ε} (h : P error) : FailsOnly P (.error error : Except ε α) := by
  intro other hother
  cases hother
  exact h

theorem FailsOnly.mono {computation : Except ε α} (h : FailsOnly P computation) (himp : ∀ error, P error → Q error) :
    FailsOnly Q computation :=
  fun error herror => himp error (h error herror)

theorem FailsOnly.bind {first : Except ε α} {next : α → Except ε β} (h : FailsOnly P first)
    (hnext : ∀ value, first = .ok value → FailsOnly P (next value)) : FailsOnly P (first >>= next) := by
  intro error herror
  rcases bind_eq_error.mp herror with hfirst | ⟨value, hfirst, hvalue⟩
  · exact h error hfirst
  · exact hnext value hfirst error hvalue

theorem failsOnly_mapM {f : α → Except ε β} {items : List α} (h : ∀ item ∈ items, FailsOnly P (f item)) :
    FailsOnly P (items.mapM f) := by
  induction items with
  | nil => exact failsOnly_ok []
  | cons item items ih =>
      obtain ⟨hitem, hitems⟩ := List.forall_mem_cons.mp h
      rw [List.mapM_cons]
      exact hitem.bind fun first _ => (ih hitems).bind fun rest _ => failsOnly_ok _

end FailsOnly

/-- A walk over items fails at the first item that it cannot go on from. -/
theorem foldlM_eq_error {step : β → α → Except ε β} {items : List α} {state : β} {error : ε} :
    items.foldlM step state = .error error ↔ ∃ before item after middle, items = before ++ item :: after ∧
      before.foldlM step state = .ok middle ∧ step middle item = .error error := by
  induction items generalizing state with
  | nil =>
      constructor
      · intro h
        cases h
      · rintro ⟨before, item, after, middle, hsplit, -⟩
        simp at hsplit
  | cons first items ih =>
      rw [List.foldlM_cons, bind_eq_error]
      constructor
      · rintro (hfirst | ⟨next, hnext, hrest⟩)
        · exact ⟨[], first, items, state, rfl, rfl, hfirst⟩
        · obtain ⟨before, item, after, middle, rfl, hmiddle, hitem⟩ := ih.mp hrest
          refine ⟨first :: before, item, after, middle, rfl, ?_, hitem⟩
          rw [List.foldlM_cons, bind_eq_ok]
          exact ⟨next, hnext, hmiddle⟩
      · rintro ⟨before, item, after, middle, hsplit, hmiddle, hitem⟩
        cases before with
        | nil =>
            cases hsplit
            cases hmiddle
            exact Or.inl hitem
        | cons head before =>
            cases hsplit
            rw [List.foldlM_cons, bind_eq_ok] at hmiddle
            obtain ⟨next, hnext, hmiddle⟩ := hmiddle
            exact Or.inr ⟨next, hnext, ih.mpr ⟨before, item, after, middle, rfl, hmiddle, hitem⟩⟩

end ReluLogic
