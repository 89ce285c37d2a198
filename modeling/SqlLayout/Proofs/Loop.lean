/-!
# Loops

A loop runs its body again and again until a pass through it leaves the loop.  A loop may never be left: it
spins if each pass leads to another one.
-/

namespace SqlLayout

/-- What a pass through the body of a loop leads to: another pass, or the end of the loop. -/
inductive Pass (σ α : Type) where
  | again (state : σ)
  | done (result : α)

namespace Loop

variable {σ α : Type} {body : σ → Pass σ α} {state next : σ} {result : α}

def run (body : σ → Pass σ α) : (passes : Nat) → (state : σ) → Pass σ α
  | 0, state => .again state
  | passes + 1, state =>
    match body state with
    | .again next => run body passes next
    | .done result => .done result

/-- The loop is left with a result after finitely many passes. -/
def Ends (body : σ → Pass σ α) (state : σ) (result : α) : Prop :=
  ∃ passes, run body passes state = .done result

def Spins (body : σ → Pass σ α) (state : σ) : Prop :=
  ∀ passes, ∃ next, run body passes state = .again next

theorem ends_of_done (h : body state = .done result) : Ends body state result :=
  ⟨1, by rw [run, h]⟩

theorem ends_of_again (h : body state = .again next) (hends : Ends body next result) :
    Ends body state result := by
  obtain ⟨passes, hrun⟩ := hends
  exact ⟨passes + 1, by rw [run, h]; exact hrun⟩

/-- States that the body does the same with stand for each other. -/
theorem Ends.of_eq {other : σ} (h : body state = body other) (hends : Ends body other result) :
    Ends body state result := by
  obtain ⟨_ | passes, hrun⟩ := hends
  · cases hrun
  · exact ⟨passes + 1, by rw [run, h]; exact hrun⟩

theorem spins_of_again (h : body state = .again next) (hspins : Spins body next) : Spins body state := by
  rintro (_ | passes)
  · exact ⟨state, rfl⟩
  · rw [run, h]
    exact hspins passes

theorem Spins.of_eq {other : σ} (h : body state = body other) (hspins : Spins body other) :
    Spins body state := by
  rintro (_ | passes)
  · exact ⟨state, rfl⟩
  · rw [run, h]
    exact hspins (passes + 1)

theorem spins_of_self (h : body state = .again state) : Spins body state := by
  intro passes
  induction passes with
  | zero => exact ⟨state, rfl⟩
  | succ passes ih =>
    rw [run, h]
    exact ih

theorem run_add (body : σ → Pass σ α) (passes more : Nat) (state : σ) :
    run body (passes + more) state =
      match run body passes state with
      | .again next => run body more next
      | .done result => .done result := by
  induction passes generalizing state with
  | zero => rw [Nat.zero_add, run]
  | succ passes ih =>
    rw [Nat.succ_add, run, run]
    cases body state with
    | again later => exact ih later
    | done result => rfl

/-- What a pass preserves is preserved by any number of passes. -/
theorem run_of_invariant (motive : σ → Prop)
    (hbody : ∀ state, motive state → ∃ next, body state = .again next ∧ motive next)
    (h : motive state) (passes : Nat) : ∃ next, run body passes state = .again next ∧ motive next := by
  induction passes generalizing state with
  | zero => exact ⟨state, rfl, h⟩
  | succ passes ih =>
    obtain ⟨later, hlater, hmotive⟩ := hbody state h
    rw [run, hlater]
    exact ih hmotive

theorem Ends.unique {other : α} (h : Ends body state result) (hother : Ends body state other) :
    result = other := by
  obtain ⟨passes, hrun⟩ := h
  obtain ⟨more, hmore⟩ := hother
  have hsame : run body (passes + more) state = run body (more + passes) state := by
    rw [Nat.add_comm]
  rw [run_add, hrun, run_add, hmore] at hsame
  cases hsame
  rfl

end Loop

end SqlLayout
