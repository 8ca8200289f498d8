import Mathlib.Logic.Basic

/-! Histories of calls on an object whose every call is defined: `run step s calls`
is the state after `calls`, and `Along step P s calls` says of each call that it has
the property `P` in the state it is made in. -/
namespace Library.History

universe u v
variable {σ : Type u} {ι : Type v} {step : σ → ι → σ}

def run (step : σ → ι → σ) (s : σ) (calls : List ι) : σ := calls.foldl step s

def Along (step : σ → ι → σ) (P : σ → ι → Prop) : σ → List ι → Prop
  | _, [] => True
  | s, call :: calls => P s call ∧ Along step P (step s call) calls

@[simp] theorem run_nil (s : σ) : run step s [] = s := rfl

@[simp] theorem run_cons (s : σ) (call : ι) (calls : List ι) :
    run step s (call :: calls) = run step (step s call) calls := rfl

/-- What the start has and every legal call keeps holds after a legal history. -/
theorem run_invariant {Legal : σ → ι → Prop} (invariant : σ → Prop)
    (kept : ∀ s call, invariant s → Legal s call → invariant (step s call))
    (s : σ) (start : invariant s) (calls : List ι) (legal : Along step Legal s calls) :
    invariant (run step s calls) := by
  induction calls generalizing s with
  | nil => exact start
  | cons call calls ih => exact ih _ (kept s call start legal.1) legal.2

/-- Along a legal history a property of the calls may be replaced by another that
agrees with it wherever the invariant holds. -/
theorem along_congr {Legal P Q : σ → ι → Prop} (invariant : σ → Prop)
    (kept : ∀ s call, invariant s → Legal s call → invariant (step s call))
    (same : ∀ s call, invariant s → Legal s call → (P s call ↔ Q s call))
    (s : σ) (start : invariant s) (calls : List ι) (legal : Along step Legal s calls) :
    Along step P s calls ↔ Along step Q s calls := by
  induction calls generalizing s with
  | nil => exact Iff.rfl
  | cons call calls ih =>
    exact and_congr (same s call start legal.1) (ih _ (kept s call start legal.1) legal.2)

theorem Along.and {P Q : σ → ι → Prop} {s : σ} {calls : List ι} (first : Along step P s calls)
    (second : Along step Q s calls) : Along step (fun s call => P s call ∧ Q s call) s calls := by
  induction calls generalizing s with
  | nil => trivial
  | cons call calls ih => exact ⟨⟨first.1,second.1⟩,ih first.2 second.2⟩

theorem along_of_forall {P : ι → Prop} (s : σ) (calls : List ι) (all : ∀ call ∈ calls, P call) :
    Along step (fun _ => P) s calls := by
  induction calls generalizing s with
  | nil => trivial
  | cons call calls ih =>
    exact ⟨all call (by simp),ih _ fun later member => all later (by simp [member])⟩

theorem along_append {P : σ → ι → Prop} {s : σ} {first second : List ι} :
    Along step P s (first ++ second) ↔ Along step P s first ∧ Along step P (run step s first) second := by
  induction first generalizing s with
  | nil => simp only [List.nil_append,Along,run_nil,true_and]
  | cons call first ih =>
    simp only [List.cons_append,Along,run_cons,ih,and_assoc]

instance decidableAlong (step : σ → ι → σ) (P : σ → ι → Prop) [∀ s call, Decidable (P s call)] :
    (s : σ) → (calls : List ι) → Decidable (Along step P s calls)
  | _, [] => isTrue trivial
  | s, call :: calls => @instDecidableAnd _ _ _ (decidableAlong step P (step s call) calls)

end Library.History
