import Mathlib.Logic.Basic

/-! Loops of an imperative program as iteration of a partial step function.
The states a run passes through at the head of its loop are exactly
`loop step n start` for the natural numbers `n`. -/
namespace Library.Loop

universe u v
variable {σ : Type u}

/-- `while (step s is defined) s := step s`, cut after `fuel` rounds. -/
def loop (step : σ → Option σ) : Nat → σ → σ
  | 0, s => s
  | fuel+1, s => match step s with
    | none => s
    | some next => loop step fuel next

@[simp] theorem loop_zero (step : σ → Option σ) (s : σ) : loop step 0 s = s := rfl

theorem loop_stopped (step : σ → Option σ) (fuel : Nat) (s : σ) (stopped : step s = none) :
    loop step fuel s = s := by
  cases fuel with
  | zero => rfl
  | succ fuel => simp only [loop,stopped]

theorem loop_next (step : σ → Option σ) (fuel : Nat) (s next : σ) (again : step s = some next) :
    loop step (fuel+1) s = loop step fuel next := by
  simp only [loop,again]

theorem loop_succ (step : σ → Option σ) (fuel : Nat) (s : σ) :
    loop step (fuel+1) s = (step (loop step fuel s)).getD (loop step fuel s) := by
  induction fuel generalizing s with
  | zero =>
    cases h : step s with
    | none => simp [loop,h]
    | some next => simp [loop,h]
  | succ fuel ih =>
    cases h : step s with
    | none => simp [loop_stopped step _ s h,h]
    | some next =>
      rw [loop_next step (fuel+1) s next h,loop_next step fuel s next h]
      exact ih next

theorem loop_add (step : σ → Option σ) (first second : Nat) (s : σ) :
    loop step (first + second) s = loop step second (loop step first s) := by
  induction second with
  | zero => rfl
  | succ second ih => rw [← Nat.add_assoc,loop_succ,loop_succ,ih]

/-- The rule of the loop invariant: what holds at the start and is kept by a
round holds at every head. -/
theorem loop_invariant (step : σ → Option σ) (invariant : σ → Prop)
    (kept : ∀ s next, invariant s → step s = some next → invariant next)
    (s : σ) (start : invariant s) (fuel : Nat) : invariant (loop step fuel s) := by
  induction fuel generalizing s with
  | zero => exact start
  | succ fuel ih =>
    cases h : step s with
    | none => rw [loop_stopped step _ s h]; exact start
    | some next =>
      rw [loop_next step fuel s next h]
      exact ih next (kept s next start h)

section Measure
variable (step : σ → Option σ) (measure : σ → Nat)
  (decreases : ∀ s next, step s = some next → measure next < measure s)

include decreases

/-- A loop that is still going has used up as much of the measure as it has made rounds. -/
theorem loop_measure (s : σ) (fuel : Nat) (going : step (loop step fuel s) ≠ none) :
    fuel + measure (loop step fuel s) ≤ measure s := by
  induction fuel generalizing s with
  | zero => simp
  | succ fuel ih =>
    cases h : step s with
    | none =>
      rw [loop_stopped step _ s h] at going
      exact absurd h going
    | some next =>
      have smaller := decreases s next h
      rw [loop_next step fuel s next h] at going ⊢
      have spent := ih next going
      omega

/-- The termination rule: a measure that every round decreases bounds the number of rounds. -/
theorem loop_ends (s : σ) (fuel : Nat) (enough : measure s ≤ fuel) : step (loop step fuel s) = none := by
  cases again : step (loop step fuel s) with
  | none => rfl
  | some next =>
    have spent := loop_measure step measure decreases s fuel (by simp [again])
    have smaller := decreases _ next again
    omega

end Measure

theorem loop_settled (step : σ → Option σ) (s : σ) (fuel more : Nat)
    (ended : step (loop step fuel s) = none) (later : fuel ≤ more) :
    loop step more s = loop step fuel s := by
  obtain ⟨extra,rfl⟩ := Nat.exists_eq_add_of_le later
  rw [loop_add,loop_stopped step extra _ ended]

/-- Two loops in step: a relation that a round of both keeps holds at all heads. -/
theorem loop_related {τ : Type v} (step : σ → Option σ) (other : τ → Option τ) (related : σ → τ → Prop)
    (kept : ∀ s t, related s t → related ((step s).getD s) ((other t).getD t))
    (s : σ) (t : τ) (start : related s t) (fuel : Nat) : related (loop step fuel s) (loop other fuel t) := by
  induction fuel with
  | zero => exact start
  | succ fuel ih =>
    rw [loop_succ,loop_succ]
    exact kept _ _ ih

/-- The items that a reader delivers until it ends, in `fuel` calls at most. -/
def collect {α : Type v} (read : σ → Option (α × σ)) : Nat → σ → List α
  | 0, _ => []
  | fuel+1, s => match read s with
    | none => []
    | some (item,next) => item :: collect read fuel next

section Collecting
variable {α : Type v} (read : σ → Option (α × σ)) (measure : σ → Nat)

theorem collect_none (fuel : Nat) (s : σ) (ended : read s = none) : collect read fuel s = [] := by
  cases fuel with
  | zero => rfl
  | succ fuel => simp only [collect,ended]

theorem collect_stable (taken : ∀ s item next, read s = some (item,next) → measure next < measure s)
    (fuel more : Nat) (s : σ) (enough : measure s < fuel) (later : fuel ≤ more) :
    collect read more s = collect read fuel s := by
  induction fuel generalizing s more with
  | zero => omega
  | succ fuel ih =>
    obtain ⟨more,rfl⟩ := Nat.exists_eq_add_of_le' (by omega : 1 ≤ more)
    cases found : read s with
    | none => simp only [collect,found]
    | some pair =>
      obtain ⟨item,next⟩ := pair
      have smaller := taken s item next found
      simp only [collect,found]
      rw [ih more next (by omega) (by omega)]

theorem collect_some (taken : ∀ s item next, read s = some (item,next) → measure next < measure s)
    (s next : σ) (item : α) (found : read s = some (item,next)) :
    collect read (measure s + 1) s = item :: collect read (measure next + 1) next := by
  have smaller := taken s item next found
  rw [collect,found]
  dsimp only
  rw [collect_stable read measure taken (measure next + 1) (measure s) next (by omega) (by omega)]

end Collecting

end Library.Loop
