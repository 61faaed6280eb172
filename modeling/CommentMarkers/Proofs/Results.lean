import Mathlib.Data.List.Forall2

/-!
# Computations that may fail

Checks and searches answer a value or a fault.  The lemmas of this file take a chain of them apart
where it succeeds, and put it together again.

Main results:

- Theorem `bind_eq_ok_iff`: a chain succeeds exactly if each of its parts does.
- Theorem `forM_eq_ok_iff`: a check of every item succeeds exactly if it succeeds for each of them.
- Theorem `forall₂_of_mapM`: a computation for every item answers with the value for each of them.
-/

namespace CommentMarkers

/-- What follows a success goes on with its value. -/
theorem ok_bind {ε α β : Type} (value : α) (next : α → Except ε β) :
    (Except.ok value >>= next) = next value :=
  rfl

/-- What follows a fault does not happen. -/
theorem error_bind {ε α β : Type} (fault : ε) (next : α → Except ε β) :
    (Except.error fault >>= next) = .error fault :=
  rfl

/-- Answering a function of the value is applying the function to the answer. -/
theorem bind_return {ε α β : Type} (first : Except ε α) (answer : α → β) :
    (first >>= fun value => return answer value) = first.map answer := by
  cases first with
  | error fault => rfl
  | ok value => rfl

/-- A computation goes on behind a first part exactly if that part succeeds. -/
theorem bind_eq_ok_iff {ε α β : Type} {first : Except ε α} {next : α → Except ε β} {result : β} :
    first >>= next = .ok result ↔ ∃ value, first = .ok value ∧ next value = .ok result := by
  cases first with
  | error fault =>
      constructor
      · intro hbind
        cases hbind
      · rintro ⟨value, hvalue, -⟩
        cases hvalue
  | ok value =>
      constructor
      · intro hbind
        exact ⟨value, rfl, hbind⟩
      · rintro ⟨other, hother, hnext⟩
        cases hother
        exact hnext

/-- A function is applied to the value of a success. -/
theorem map_eq_ok_iff {ε α β : Type} {first : Except ε α} {change : α → β} {result : β} :
    first.map change = .ok result ↔ ∃ value, first = .ok value ∧ change value = result := by
  rw [← bind_return, bind_eq_ok_iff]
  constructor
  · rintro ⟨value, hvalue, hsame⟩
    exact ⟨value, hvalue, Except.ok.inj hsame⟩
  · rintro ⟨value, hvalue, hsame⟩
    exact ⟨value, hvalue, congrArg Except.ok hsame⟩

/-- A function of the items of two lists may be applied before they are put together. -/
theorem map_bind_append {ε α β : Type} (change : α → β) (first second : Except ε (List α)) :
    (first >>= fun front => second >>= fun back => return front ++ back).map (·.map change) =
      first.map (·.map change) >>= fun front => second.map (·.map change) >>= fun back =>
        return front ++ back := by
  cases first with
  | error fault => rfl
  | ok front =>
      cases second with
      | error fault => rfl
      | ok back => exact congrArg Except.ok List.map_append

/-- A check of every item succeeds exactly if it succeeds for each of them. -/
theorem forM_eq_ok_iff {ε α : Type} {check : α → Except ε Unit} {items : List α} :
    items.forM check = .ok () ↔ ∀ item ∈ items, check item = .ok () := by
  induction items with
  | nil =>
      constructor
      · intro _ item hitem
        cases hitem
      · intro _
        rfl
  | cons item rest ih =>
      change (check item >>= fun _ => rest.forM check) = .ok () ↔ _
      rw [bind_eq_ok_iff, List.forall_mem_cons, ih]
      constructor
      · rintro ⟨_, hfirst, hrest⟩
        exact ⟨hfirst, hrest⟩
      · rintro ⟨hfirst, hrest⟩
        exact ⟨(), hfirst, hrest⟩

/-- A computation for every item answers with the value for each of them, in their order. -/
theorem forall₂_of_mapM {ε α β : Type} {compute : α → Except ε β} {items : List α}
    {results : List β} (hresults : items.mapM compute = .ok results) :
    List.Forall₂ (fun item result => compute item = .ok result) items results := by
  induction items generalizing results with
  | nil =>
      cases hresults
      exact List.Forall₂.nil
  | cons item rest ih =>
      rw [List.mapM_cons] at hresults
      obtain ⟨first, hfirst, hbind⟩ := bind_eq_ok_iff.1 hresults
      obtain ⟨others, hothers, hsame⟩ := bind_eq_ok_iff.1 hbind
      cases hsame
      exact List.Forall₂.cons hfirst (ih hothers)

end CommentMarkers
