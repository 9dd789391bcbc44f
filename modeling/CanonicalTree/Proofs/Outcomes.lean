import CanonicalTree.Failure
import Mathlib.Data.List.Forall2

/-!
# Steps that may fail

A computation of several steps succeeds only if all its steps do. The lemmas below take a
successful computation apart, so that no proof has to follow the failing branches: `bind_eq_ok_iff`
for two steps and `foldlM_ok_invariant` for a step that is repeated over a list. Results that exist
for the items of a list one by one exist for the list (`exists_forall₂_iff`). A failure is the
failure of one step, with all the steps before it done (`exists_split_of_foldlM_eq_error`). Two
computations that correspond step by step correspond as a whole, failures included.
-/

namespace CanonicalTree

theorem bind_eq_ok_iff {ε α β : Type} {x : Except ε α} {f : α → Except ε β} {b : β} :
    (x >>= f) = .ok b ↔ ∃ a, x = .ok a ∧ f a = .ok b := by
  cases x <;> simp [bind, Except.bind]

theorem pure_eq_ok_iff {ε α : Type} {a b : α} : (pure a : Except ε α) = .ok b ↔ a = b := by
  simp [pure, Except.pure]

/-- Results of a step that only changes a value are changed results. -/
theorem exists_bind_pure_eq_ok_iff {ε α β : Type} {x : Except ε α} {f : α → β} {P : β → Prop} :
    (∃ b, (x >>= fun a => pure (f a)) = .ok b ∧ P b) ↔ ∃ a, x = .ok a ∧ P (f a) := by
  cases x <;> simp [bind, Except.bind, pure, Except.pure]

/-- What every step over a list keeps, the whole run keeps. -/
theorem foldlM_ok_invariant {ε σ α : Type} {f : σ → α → Except ε σ} (P : σ → Prop)
    {items : List α} (hstep : ∀ state item next, P state → f state item = .ok next → P next)
    {start final : σ} (hstart : P start) (h : items.foldlM f start = .ok final) : P final := by
  induction items generalizing start with
  | nil =>
    rw [List.foldlM_nil, pure_eq_ok_iff] at h
    exact h ▸ hstart
  | cons item rest ih =>
    rw [List.foldlM_cons, bind_eq_ok_iff] at h
    obtain ⟨next, hnext, hrest⟩ := h
    exact ih (hstep start item next hstart hnext) hrest

/-- The same for a step that gives nothing when it fails. -/
theorem foldlM_some_invariant {σ α : Type} {f : σ → α → Option σ} (P : σ → Prop) {items : List α}
    (hstep : ∀ item ∈ items, ∀ state next, P state → f state item = some next → P next)
    {start final : σ} (hstart : P start) (h : items.foldlM f start = some final) : P final := by
  induction items generalizing start with
  | nil =>
    rw [List.foldlM_nil] at h
    exact Option.some.inj h ▸ hstart
  | cons item rest ih =>
    rw [List.foldlM_cons] at h
    obtain ⟨next, hnext, hrest⟩ := Option.bind_eq_some_iff.mp h
    exact ih (fun item hitem => hstep item (List.mem_cons_of_mem _ hitem))
      (hstep item List.mem_cons_self start next hstart hnext) hrest

/-- There are related results for all items if there is one for each. -/
theorem exists_forall₂_iff {α β : Type} {R : α → β → Prop} {items : List α} :
    (∃ results, List.Forall₂ R items results) ↔ ∀ item ∈ items, ∃ result, R item result := by
  induction items with
  | nil => simp
  | cons item rest ih =>
    rw [List.forall_mem_cons, ← ih]
    simp only [List.forall₂_cons_left_iff]
    constructor
    · rintro ⟨_, result, results, hresult, hresults, rfl⟩
      exact ⟨⟨result, hresult⟩, results, hresults⟩
    · rintro ⟨⟨result, hresult⟩, results, hresults⟩
      exact ⟨_, result, results, hresult, hresults, rfl⟩

/-- What succeeds exactly if no item is bad fails exactly if some item is. -/
theorem exists_error_iff {ε α β : Type} {x : Except ε α} {items : List β} {Bad : β → Prop}
    (h : (∃ a, x = .ok a) ↔ ∀ item ∈ items, ¬ Bad item) :
    (∃ e, x = .error e) ↔ ∃ item ∈ items, Bad item := by
  have hfails : (∃ e, x = .error e) ↔ ¬ ∃ a, x = .ok a := by
    cases x <;> simp
  rw [hfails, h]
  simp only [not_forall, not_not, exists_prop]

/-! ## The step that fails -/

/-- What has no result has failed. -/
theorem exists_error_of_ne_ok {ε α : Type} {x : Except ε α} (h : ∀ a, x ≠ .ok a) :
    ∃ e, x = .error e := by
  cases x with
  | error e => exact ⟨e, rfl⟩
  | ok a => exact absurd rfl (h a)

theorem bind_eq_error_iff {ε α β : Type} {x : Except ε α} {f : α → Except ε β} {e : ε} :
    (x >>= f) = .error e ↔ x = .error e ∨ ∃ a, x = .ok a ∧ f a = .error e := by
  cases x <;> simp [bind, Except.bind]

/-- A failure further out is a failure inside, with one more step in front. -/
theorem within_eq_error_iff {α : Type} {segment : Segment} {result : Except Failure α}
    {failure : Failure} :
    within segment result = .error failure ↔
      ∃ inner, result = .error inner ∧ failure = inner.under segment := by
  cases result <;> simp [eq_comm]

/-- A run over a list fails at an item up to which it does not. -/
theorem exists_split_of_foldlM_eq_error {ε σ α : Type} {f : σ → α → Except ε σ} {items : List α}
    {start : σ} {e : ε} (h : items.foldlM f start = .error e) :
    ∃ before item after state, items = before ++ item :: after ∧
      before.foldlM f start = .ok state ∧ f state item = .error e := by
  induction items generalizing start with
  | nil => cases h
  | cons item rest ih =>
    rw [List.foldlM_cons, bind_eq_error_iff] at h
    rcases h with hfirst | ⟨next, hnext, hrest⟩
    · exact ⟨[], item, rest, start, rfl, rfl, hfirst⟩
    · obtain ⟨before, failing, after, state, rfl, hbefore, hfails⟩ := ih hrest
      refine ⟨item :: before, failing, after, state, rfl, ?_, hfails⟩
      rw [List.foldlM_cons, hnext]
      exact hbefore

/-! ## Two computations side by side -/

/-- If each step on a changed result gives the changed result of the step, so do both together. -/
theorem map_bind_eq {ε α α' β β' : Type} {x : Except ε α} {g : α → α'} {h : β → β'}
    {next : α → Except ε β} {changed : α' → Except ε β'}
    (hnext : ∀ a, changed (g a) = (next a).map h) : (x.map g >>= changed) = (x >>= next).map h := by
  cases x with
  | error _ => rfl
  | ok a => exact hnext a

/-- If a step does not mind a change, neither do two in a row. -/
theorem bind_map_eq {ε α β β' : Type} {x : Except ε α} {h : β → β'} {next : α → Except ε β}
    {changed : α → Except ε β'} (hnext : ∀ a, changed a = (next a).map h) :
    (x >>= changed) = (x >>= next).map h := by
  cases x with
  | error _ => rfl
  | ok a => exact hnext a

theorem within_map {α β : Type} (g : α → β) (segment : Segment) (outcome : Except Failure α) :
    within segment (outcome.map g) = (within segment outcome).map g := by
  cases outcome <;> rfl

/-- Loops over lists that correspond item by item, with steps that do the same, do the same. -/
theorem foldlM_congr_of_forall₂ {ε σ α β : Type} {R : α → β → Prop} {f : σ → α → Except ε σ}
    {g : σ → β → Except ε σ} {items : List α} {others : List β}
    (h : List.Forall₂ R items others)
    (hstep : ∀ item ∈ items, ∀ other ∈ others, R item other → ∀ state, f state item = g state other)
    (state : σ) : items.foldlM f state = others.foldlM g state := by
  induction h generalizing state with
  | nil => rfl
  | @cons item other rest others hfirst _ ih =>
    rw [List.foldlM_cons, List.foldlM_cons,
      hstep item List.mem_cons_self other List.mem_cons_self hfirst state]
    congr 1
    funext next
    refine ih (fun item hitem other hother => ?_) next
    exact hstep item (List.mem_cons_of_mem _ hitem) other (List.mem_cons_of_mem _ hother)

end CanonicalTree
