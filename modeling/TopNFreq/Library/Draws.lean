import Mathlib.Data.Stream.Init
import Mathlib.Data.List.Basic

/-! Programs that draw random numbers, run on an infinite stream of draws; a program
that yields nothing has raised an exception. What holds whatever is drawn, and what
some draws lead to, has its own rules. -/
namespace Library.Draws

/-- A number from 0 up to, but not including, 1. -/
structure Draw where
  num : Nat
  den : Nat
  below : num < den

abbrev Drawing (α : Type) := StateT (Stream' Draw) Option α

def random : Drawing Draw := fun draws => some (draws.head,draws.tail)

/-- `low + int(random() * (high - low + 1))` -/
def randint (low high : Nat) : Drawing Nat := do
  let r ← random
  return low + r.num * (high - low + 1) / r.den

/-- `seq[int(random() * len(seq))]`, which is an error for an empty sequence. -/
def choice {α : Type} (seq : List α) : Drawing α := do
  let r ← random
  StateT.lift seq[r.num * seq.length / r.den]?

variable {α β : Type}

/-- Whatever is drawn, the program ends without an exception, with `P` for its result. -/
def Always (program : Drawing α) (P : α → Prop) : Prop :=
  ∀ draws, ∃ result rest, program.run draws = some (result,rest) ∧ P result

/-- Some draws lead to a result with `P`, whatever is drawn after them. -/
def Can (program : Drawing α) (P : α → Prop) : Prop :=
  ∃ result, P result ∧ ∀ rest, ∃ draws, program.run draws = some (result,rest)

/-- Some draws lead to an exception or to a result without `P`. -/
def Fails (program : Drawing α) (P : α → Prop) : Prop :=
  ∃ draws, ∀ result rest, program.run draws = some (result,rest) → ¬ P result

theorem Fails.not_always {program : Drawing α} {P : α → Prop} (fails : Fails program P) : ¬ Always program P := by
  obtain ⟨draws,bad⟩ := fails
  intro always
  obtain ⟨result,rest,run,good⟩ := always draws
  exact bad result rest run good

theorem bind_run (program : Drawing α) (next : α → Drawing β) (draws : Stream' Draw) :
    (program >>= next).run draws = (program.run draws).bind fun pair => (next pair.1).run pair.2 :=
  rfl

theorem always_pure {P : α → Prop} {result : α} (good : P result) : Always (pure result) P :=
  fun draws => ⟨result,draws,rfl,good⟩

theorem Always.bind {program : Drawing α} {next : α → Drawing β} {P : α → Prop} {Q : β → Prop}
    (first : Always program P) (second : ∀ x, P x → Always (next x) Q) : Always (program >>= next) Q := by
  intro draws
  obtain ⟨x,middle,run,good⟩ := first draws
  obtain ⟨y,rest,later,final⟩ := second x good middle
  refine ⟨y,rest,?_,final⟩
  rw [bind_run,run]
  exact later

theorem Always.imp {program : Drawing α} {P Q : α → Prop} (always : Always program P) (weaker : ∀ x, P x → Q x) :
    Always program Q := by
  intro draws
  obtain ⟨x,rest,run,good⟩ := always draws
  exact ⟨x,rest,run,weaker x good⟩

theorem Can.imp {program : Drawing α} {P Q : α → Prop} (can : Can program P) (weaker : ∀ x, P x → Q x) :
    Can program Q := by
  obtain ⟨x,good,before⟩ := can
  exact ⟨x,weaker x good,before⟩

theorem can_pure {P : α → Prop} {result : α} (good : P result) : Can (pure result) P :=
  ⟨result,good,fun rest => ⟨rest,rfl⟩⟩

theorem Can.bind {program : Drawing α} {next : α → Drawing β} {P : α → Prop} {Q : β → Prop}
    (first : Can program P) (second : ∀ x, P x → Can (next x) Q) : Can (program >>= next) Q := by
  obtain ⟨x,good,before⟩ := first
  obtain ⟨y,final,after⟩ := second x good
  refine ⟨y,final,?_⟩
  intro rest
  obtain ⟨middle,later⟩ := after rest
  obtain ⟨draws,run⟩ := before middle
  refine ⟨draws,?_⟩
  rw [bind_run,run]
  exact later

theorem fails_pure {P : α → Prop} {result : α} (bad : ¬ P result) : Fails (pure result) P := by
  refine ⟨Stream'.const ⟨0,1,Nat.one_pos⟩,?_⟩
  intro other rest run
  cases run
  exact bad

theorem Can.fails {program : Drawing α} {next : α → Drawing β} {P : α → Prop} {Q : β → Prop}
    (first : Can program P) (second : ∀ x, P x → Fails (next x) Q) : Fails (program >>= next) Q := by
  obtain ⟨x,good,before⟩ := first
  obtain ⟨middle,bad⟩ := second x good
  obtain ⟨draws,run⟩ := before middle
  refine ⟨draws,?_⟩
  intro y rest later
  rw [bind_run,run] at later
  exact bad y rest later

/-- Every result has `P`; for some draws there may be none. -/
structure Whenever (program : Drawing α) (P : α → Prop) : Prop where
  results : ∀ draws result rest, program.run draws = some (result,rest) → P result

theorem whenever_raised {P : α → Prop} : Whenever (StateT.lift none : Drawing α) P :=
  ⟨fun draws x rest run => by cases run⟩

theorem whenever_pure {P : α → Prop} {result : α} (good : P result) : Whenever (pure result) P := by
  refine ⟨fun draws other rest run => ?_⟩
  cases run
  exact good

theorem Whenever.bind {program : Drawing α} {next : α → Drawing β} {P : α → Prop} {Q : β → Prop}
    (first : Whenever program P) (second : ∀ x, P x → Whenever (next x) Q) : Whenever (program >>= next) Q := by
  refine ⟨fun draws y rest run => ?_⟩
  rw [bind_run] at run
  cases found : program.run draws with
  | none =>
    rw [found] at run
    cases run
  | some pair =>
    rw [found] at run
    exact (second pair.1 (first.results draws pair.1 pair.2 found)).results pair.2 y rest run

theorem Whenever.imp {program : Drawing α} {P Q : α → Prop} (whenever : Whenever program P) (weaker : ∀ x, P x → Q x) :
    Whenever program Q :=
  ⟨fun draws x rest run => weaker x (whenever.results draws x rest run)⟩

theorem Whenever.and {program : Drawing α} {P Q : α → Prop} (first : Whenever program P) (second : Whenever program Q) :
    Whenever program fun x => P x ∧ Q x :=
  ⟨fun draws x rest run => ⟨first.results draws x rest run,second.results draws x rest run⟩⟩

theorem Always.whenever {program : Drawing α} {P : α → Prop} (always : Always program P) : Whenever program P := by
  refine ⟨fun draws x rest run => ?_⟩
  obtain ⟨y,later,same,good⟩ := always draws
  rw [run] at same
  cases same
  exact good

theorem always_random : Always random fun _ => True := fun draws => ⟨draws.head,draws.tail,rfl,trivial⟩

theorem can_random (r : Draw) : Can random fun drawn => drawn = r :=
  ⟨r,rfl,fun rest => ⟨Stream'.cons r rest,rfl⟩⟩

theorem scaled_lt (r : Draw) (count : Nat) (positive : 0 < count) : r.num * count / r.den < count := by
  rw [Nat.div_lt_iff_lt_mul (Nat.zero_lt_of_lt r.below),Nat.mul_comm count]
  exact Nat.mul_lt_mul_of_pos_right r.below positive

/-- A draw that selects the item `i` of `count`. -/
def Draw.at (i count : Nat) (inside : i < count) : Draw := ⟨i,count,inside⟩

theorem scaled_at (i count : Nat) (inside : i < count) :
    (Draw.at i count inside).num * count / (Draw.at i count inside).den = i :=
  Nat.mul_div_cancel i (Nat.zero_lt_of_lt inside)

theorem always_randint (low high : Nat) (order : low ≤ high) :
    Always (randint low high) fun n => low ≤ n ∧ n ≤ high := by
  apply always_random.bind
  intro r _
  apply always_pure
  have inside := scaled_lt r (high - low + 1) (Nat.succ_pos _)
  generalize r.num * (high - low + 1) / r.den = offset at inside
  omega

theorem can_randint (low high n : Nat) (above : low ≤ n) (below : n ≤ high) :
    Can (randint low high) fun drawn => drawn = n := by
  have inside : n - low < high - low + 1 := by omega
  apply (can_random (Draw.at (n - low) (high - low + 1) inside)).bind
  rintro _ rfl
  apply can_pure
  rw [scaled_at]
  omega

theorem always_choice (seq : List α) (nonempty : seq ≠ []) : Always (choice seq) fun item => item ∈ seq := by
  apply always_random.bind
  intro r _ draws
  have inside := scaled_lt r seq.length (List.length_pos_iff.mpr nonempty)
  refine ⟨seq[r.num * seq.length / r.den],draws,?_,List.getElem_mem inside⟩
  rw [List.getElem?_eq_getElem inside]
  rfl

theorem can_choice {seq : List α} {item : α} (member : item ∈ seq) : Can (choice seq) fun chosen => chosen = item := by
  obtain ⟨i,inside,rfl⟩ := List.getElem_of_mem member
  apply (can_random (Draw.at i seq.length inside)).bind
  rintro _ rfl
  refine ⟨seq[i],rfl,fun rest => ⟨rest,?_⟩⟩
  rw [scaled_at,List.getElem?_eq_getElem inside]
  rfl

theorem whenever_random : Whenever random fun _ => True := always_random.whenever

theorem whenever_randint (low high : Nat) : Whenever (randint low high) fun _ => True :=
  whenever_random.bind fun _ _ => whenever_pure trivial

theorem whenever_choice (seq : List α) : Whenever (choice seq) fun item => item ∈ seq := by
  by_cases empty : seq = []
  · subst empty
    refine ⟨fun draws item rest run => ?_⟩
    cases run
  · exact (always_choice seq empty).whenever

theorem fails_choice {P : α → Prop} : Fails (choice ([] : List α)) P := by
  refine ⟨Stream'.const ⟨0,1,Nat.one_pos⟩,?_⟩
  intro item rest run
  cases run

theorem Fails.bind {program : Drawing α} {next : α → Drawing β} {Q : β → Prop}
    (first : Fails program fun _ => True) : Fails (program >>= next) Q := by
  obtain ⟨draws,raised⟩ := first
  refine ⟨draws,?_⟩
  intro y rest run
  rw [bind_run] at run
  cases found : program.run draws with
  | none =>
    rw [found] at run
    cases run
  | some pair => exact absurd trivial (raised pair.1 pair.2 found)

theorem always_mapM {program : α → Drawing β} (seq : List α) (each : ∀ x, Always (program x) fun _ => True) :
    Always (seq.mapM program) fun results => results.length = seq.length := by
  induction seq with
  | nil => exact always_pure rfl
  | cons x rest ih =>
    rw [List.mapM_cons]
    apply (each x).bind
    intro y _
    apply ih.bind
    intro results length
    apply always_pure
    rw [List.length_cons,List.length_cons,length]

theorem whenever_mapM {program : α → Drawing β} {P : β → Prop} (seq : List α) (each : ∀ x, Whenever (program x) P) :
    Whenever (seq.mapM program) fun results => ∀ y ∈ results, P y := by
  induction seq with
  | nil => exact whenever_pure fun y member => absurd member List.not_mem_nil
  | cons x rest ih =>
    rw [List.mapM_cons]
    apply (each x).bind
    intro y good
    apply ih.bind
    intro results others
    exact whenever_pure (List.forall_mem_cons.mpr ⟨good,others⟩)

theorem can_mapM {program : α → Drawing β} (seq : List α) (each : ∀ x, Can (program x) fun _ => True) :
    Can (seq.mapM program) fun results => results.length = seq.length := by
  induction seq with
  | nil => exact can_pure rfl
  | cons x rest ih =>
    rw [List.mapM_cons]
    apply (each x).bind
    intro y _
    apply ih.bind
    intro results length
    apply can_pure
    rw [List.length_cons,List.length_cons,length]

end Library.Draws
