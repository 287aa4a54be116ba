/-!
# Runs that leave a trail

`trail` runs a step over a list, as `List.foldlM` does, and keeps every item that
went through together with the state after it.  The other lemmas are about runs without
a trail.

* A run that gets to its end gets through its parts (`foldlM_cons_eq_ok_iff`,
  `foldlM_append_eq_ok_iff`, `foldlM_concat_eq_ok`).
* What can be followed step by step can be followed to the end (`map_foldlM`), what every
  step keeps is kept (`foldlM_invariant`), and what every step asks of its item holds of
  all of them (`forall_mem_of_foldlM`).
-/

namespace CurveSketch

variable {α ε σ τ : Type}

/-- If a view of the state follows every step, it follows a whole run. -/
theorem map_foldlM {step : σ → α → Except ε σ} {follow : τ → α → Except ε τ} {view : σ → τ}
    (h : ∀ state item, (step state item).map view = follow (view state) item)
    (items : List α) (state : σ) :
    (items.foldlM step state).map view = items.foldlM follow (view state) := by
  induction items generalizing state with
  | nil => rfl
  | cons item items ih =>
    rw [List.foldlM_cons, List.foldlM_cons, ← h]
    cases step state item with
    | error cause => rfl
    | ok next => exact ih next

theorem bind_eq_ok_iff {first : Except ε α} {next : α → Except ε σ} {last : σ} :
    first >>= next = .ok last ↔ ∃ value, first = .ok value ∧ next value = .ok last := by
  cases first with
  | error cause =>
    constructor
    · intro h
      cases h
    · rintro ⟨value, h, -⟩
      cases h
  | ok value =>
    constructor
    · intro h
      exact ⟨value, rfl, h⟩
    · rintro ⟨other, hother, h⟩
      obtain rfl : value = other := Except.ok.inj hother
      exact h

theorem map_eq_ok_iff {result : Except ε σ} {view : σ → τ} {shown : τ} :
    result.map view = .ok shown ↔ ∃ state, result = .ok state ∧ view state = shown := by
  cases result with
  | error cause =>
    constructor
    · intro h
      cases h
    · rintro ⟨state, h, -⟩
      cases h
  | ok state =>
    constructor
    · intro h
      exact ⟨state, rfl, Except.ok.inj h⟩
    · rintro ⟨other, hother, h⟩
      obtain rfl : state = other := Except.ok.inj hother
      exact congrArg Except.ok h

/-- A run begins with the step of its first item. -/
theorem foldlM_cons_eq_ok_iff {step : σ → α → Except ε σ} {items : List α} {item : α}
    {state last : σ} :
    (item :: items).foldlM step state = .ok last ↔
      ∃ next, step state item = .ok next ∧ items.foldlM step next = .ok last := by
  rw [List.foldlM_cons, bind_eq_ok_iff]

/-- A run can be interrupted between two items. -/
theorem foldlM_append_eq_ok_iff {step : σ → α → Except ε σ} {items more : List α}
    {state last : σ} :
    (items ++ more).foldlM step state = .ok last ↔
      ∃ next, items.foldlM step state = .ok next ∧ more.foldlM step next = .ok last := by
  rw [List.foldlM_append, bind_eq_ok_iff]

/-- A run ends with the step of its last item. -/
theorem foldlM_concat_eq_ok {step : σ → α → Except ε σ} {items : List α} {item : α}
    {state last : σ} (h : (items ++ [item]).foldlM step state = .ok last) :
    ∃ before, items.foldlM step state = .ok before ∧ step before item = .ok last := by
  obtain ⟨before, hbefore, hlast⟩ := foldlM_append_eq_ok_iff.mp h
  obtain ⟨next, hstep, hnext⟩ := foldlM_cons_eq_ok_iff.mp hlast
  obtain rfl : next = last := Except.ok.inj hnext
  exact ⟨before, hbefore, hstep⟩

/-- What every step keeps, a whole run keeps. -/
theorem foldlM_invariant {step : σ → α → Except ε σ} {invariant : σ → Prop}
    (h : ∀ {state item next}, invariant state → step state item = .ok next → invariant next)
    {items : List α} {state last : σ} (hstate : invariant state)
    (hrun : items.foldlM step state = .ok last) : invariant last := by
  induction items generalizing state with
  | nil =>
    obtain rfl : state = last := Except.ok.inj hrun
    exact hstate
  | cons item items ih =>
    obtain ⟨next, hstep, hrest⟩ := foldlM_cons_eq_ok_iff.mp hrun
    exact ih (h hstate hstep) hrest

/-- What holds of every item that gets through a step holds of all items of a run that
gets to its end. -/
theorem forall_mem_of_foldlM {step : σ → α → Except ε σ} {holds : α → Prop}
    (h : ∀ state item next, step state item = .ok next → holds item)
    {items : List α} {state last : σ} (hrun : items.foldlM step state = .ok last) :
    ∀ item ∈ items, holds item := by
  induction items generalizing state with
  | nil =>
    intro item hitem
    cases hitem
  | cons item items ih =>
    obtain ⟨next, hstep, hrest⟩ := foldlM_cons_eq_ok_iff.mp hrun
    exact List.forall_mem_cons.mpr ⟨h state item next hstep, ih hrest⟩

/-- The items that a run gets through, each with the state after it, and how the
run ends. -/
def trail (step : σ → α → Except ε σ) : σ → List α → List (α × σ) × Except ε σ
  | state, [] => ([], .ok state)
  | state, item :: items =>
    match step state item with
    | .error cause => ([], .error cause)
    | .ok next =>
      let (rest, result) := trail step next items
      ((item, next) :: rest, result)

/-- A run ends the same way whether it leaves a trail or not. -/
theorem trail_snd (step : σ → α → Except ε σ) (state : σ) (items : List α) :
    (trail step state items).2 = items.foldlM step state := by
  induction items generalizing state with
  | nil => rfl
  | cons item items ih =>
    rw [List.foldlM_cons, trail]
    cases step state item with
    | error cause => rfl
    | ok next => exact ih next

/-- The trail is a beginning of the list, and the whole list if the run
succeeds. -/
theorem trail_fst_prefix (step : σ → α → Except ε σ) (state : σ) (items : List α) :
    (trail step state items).1.map Prod.fst <+: items := by
  induction items generalizing state with
  | nil => exact List.nil_prefix
  | cons item items ih =>
    rw [trail]
    cases step state item with
    | error cause => exact List.nil_prefix
    | ok next => exact List.prefix_cons_inj item |>.mpr (ih next)

end CurveSketch
