import TopNFreq.Reruns
import TopNFreq.Overflow

/-! `main.cpp` and what `TopNFreqUrls::Run` prints: from the command line to the exit
code, the output and the files that are left. -/
namespace TopNFreq
open Library.Text Library.InputStream Library.Loop IStream FileManager

/-- What the C library is free to do: the value of `atoi` for a number that is no `int`,
and the texts of the three durations. -/
structure Console where
  atoiOverflow : Bytes → Int32
  seconds : Nat → Bytes

def ascii (text : String) : Bytes := text.toList.map fun c => Fin.ofNat 256 c.toNat

def atoi (console : Console) (text : Bytes) : Int32 :=
  let numeral := text.dropWhile isSpace
  let (negative,width) := sign numeral
  let digits := (numeral.drop width).takeWhile isDigit
  let value : Int := if negative then -(number digits : Int) else number digits
  if -2^31 ≤ value ∧ value < 2^31 then Int32.ofInt value else console.atoiOverflow text

/-- What the process leaves: the exit code, the lines on `cout` (`ReadLine_quiet`: none comes
from reading), those of `main` itself on `cerr`, and the files. -/
structure Exit where
  code : Nat
  cout : List Bytes
  cerr : List Bytes
  disk : Disk

/-- The lines in front of the argument check. -/
def greeting (file_path : Bytes) (num_results : Int32) (mem_limit : UInt64) : List Bytes :=
  [ascii "Number of results: " ++ decimalInt num_results.toInt,
    ascii "Mem Limit: " ++ decimal mem_limit.toNat ++ ascii " bytes",
    ascii "Processing input file " ++ file_path ++ ascii "..."]

/-- The lines of `Run` for its answer; `MergeSort` prints the first one when it has no results. -/
def runLines (console : Console) (urls_scanned : UInt64) : Option (List Bytes) → List Bytes
  | none => []
  | some results =>
    (if results.isEmpty then [ascii "No urls scanned!"] else []) ++ results ++
      [ascii "Spill stage: " ++ console.seconds 0 ++ ascii "s",
        ascii "Merge stage: " ++ console.seconds 1 ++ ascii "s",
        ascii "Total time: " ++ console.seconds 2 ++ ascii "s",
        ascii "Scanned URLs: " ++ decimal urls_scanned.toNat]

/-- The process, with the whole of `argv`. -/
def process (console : Console) (env : Env) (disk : Disk) (argv : List Bytes) : Exit :=
  match argv with
  | _ :: file_path :: results :: limit :: _ =>
    let num_results := atoi console results
    let mem_limit_in_mb := atoi console limit
    let cout := greeting file_path num_results (memLimit mem_limit_in_mb)
    match main env disk file_path num_results mem_limit_in_mb with
    | none => ⟨1,cout,[ascii "Illegal arguments!"],disk⟩
    | some (answer,instance_) => ⟨0,cout ++ runLines console instance_.urls_scanned_ answer,[],instance_.disk⟩
  | _ => ⟨1,[],[ascii "Too few arguments!",ascii "Args: file_path num_results mem_limit_in_mb"],disk⟩

/-! ## The arguments -/

/-- `atoi` skips blanks, and what follows the number does not matter. -/
theorem atoi_numeral (console : Console) (blanks rest : Bytes) {text : Bytes} {z : Int} (numeral : Numeral text z)
    (blank : ∀ b ∈ blanks, isSpace b = true) (stop : ∀ b ∈ rest.head?, isDigit b = false)
    (fits : -2^31 ≤ z ∧ z < 2^31) : atoi console (blanks ++ (text ++ rest)) = Int32.ofInt z := by
  obtain ⟨negative,width,digits,solid,signed,found,_,_,value⟩ := numeral_parts numeral rest stop
  have start : (blanks ++ (text ++ rest)).dropWhile isSpace = text ++ rest := by
    have whole := @List.takeWhile_append_dropWhile _ isSpace (text ++ rest)
    rw [solid,List.nil_append] at whole
    rw [List.dropWhile_append_of_pos blank,whole]
  simp only [atoi,start,signed,found,value,if_pos fits]

theorem atoi_decimal (console : Console) (n : Int32) : atoi console (decimalInt n.toInt) = n := by
  have read := atoi_numeral console [] [] (decimalInt_numeral n.toInt) (by simp) (by simp) ⟨n.le_toInt,n.toInt_lt⟩
  rwa [List.nil_append,List.append_nil,Int32.ofInt_toInt] at read

/-- A negative limit is accepted, as it stands for a large one. -/
theorem accepted_iff (num_results mem_limit_in_mb : Int32) :
    argumentsAccepted num_results mem_limit_in_mb = true ↔ 0 < num_results.toInt ∧ mem_limit_in_mb.toInt ≠ 0 := by
  constructor
  · intro accepted
    refine ⟨?_,accepted_nonzero num_results mem_limit_in_mb accepted⟩
    simp only [argumentsAccepted,Bool.not_or,Bool.and_eq_true,Bool.not_eq_true',decide_eq_false_iff_not,
      Int32.le_iff_toInt_le] at accepted
    exact not_le.mp accepted.1
  · rintro ⟨positive,nonzero⟩
    have upper := mem_limit_in_mb.toInt_lt
    have lower := mem_limit_in_mb.le_toInt
    have fits : (mem_limit_in_mb.toInt * 1024 * 1024 % 2^64).toNat < UInt64.size := by
      simp only [UInt64.size]
      omega
    have limit : 0 < (memLimit mem_limit_in_mb).toNat := by
      rw [memLimit,UInt64.ofInt,UInt64.toNat_ofNat_of_lt' fits]
      omega
    simp only [argumentsAccepted,Bool.not_or,Bool.and_eq_true,Bool.not_eq_true',decide_eq_false_iff_not,
      Int32.le_iff_toInt_le,UInt64.le_iff_toNat_le]
    exact ⟨not_le.mpr positive,not_le.mpr limit⟩

/-! ## The counter -/

namespace TopNFreqUrls

theorem merge_step_scanned (env : Env) (s next : MergeState) (again : MergeSort.step env s = some next) :
    next.self.urls_scanned_ = s.self.urls_scanned_ := by
  have body (b : MergeState) : (MergeSort.body env b).self.urls_scanned_ = b.self.urls_scanned_ := by
    unfold MergeSort.body
    split
    · rfl
    · split <;> rfl
  unfold MergeSort.step at again
  split at again
  · cases again
  · split at again <;> cases again
    · rfl
    · exact body _

theorem MergeSort_scanned (env : Env) (self : TopNFreqUrls) :
    (self.MergeSort env).2.1.urls_scanned_ = self.urls_scanned_ := by
  have merged : (MergeSort.head env self (MergeSort.rounds (MergeSort.start env self))).self.urls_scanned_ =
      self.urls_scanned_ := by
    refine loop_invariant (MergeSort.step env) (fun s => s.self.urls_scanned_ = self.urls_scanned_) ?_ _ rfl _
    intro s next same again
    exact (merge_step_scanned env s next again).trans same
  unfold MergeSort
  generalize MergeSort.head env self (MergeSort.rounds (MergeSort.start env self)) = s at merged
  have last : (if s.curr_tuple.IsEmpty then (s.self,s.topN_tuples)
      else s.self.UpdateHeap env s.curr_tuple s.topN_tuples).1.urls_scanned_ = self.urls_scanned_ := by
    split <;> exact merged
  unfold MergeSort.finish
  generalize (if s.curr_tuple.IsEmpty then (s.self,s.topN_tuples) else
    s.self.UpdateHeap env s.curr_tuple s.topN_tuples) = settled at last
  dsimp only
  split <;> exact last

end TopNFreqUrls

open TopNFreqUrls

/-- What a run of the process whose arguments are accepted prints, for any faults. -/
theorem run_scanned (env : Env) (disk : Disk) (file content : Bytes) (present : disk file = some content)
    (num_results : Int32) (mem_limit : UInt64) (low : 1024 ≤ mem_limit.toNat) (console : Console) :
    let run := (TopNFreqUrls.new file num_results mem_limit disk).Run env
    runLines console run.2.urls_scanned_ run.1 =
      runLines console (UInt64.ofNat (inputUrls env content).length) run.1 := by
  unfold Run
  rcases passed : (TopNFreqUrls.new file num_results mem_limit disk).PartialSort env with ⟨_ | _,spilled⟩
  · rfl
  · obtain ⟨_,_,batching⟩ := passed_batches present low passed
    have all : (cut mem_limit [] (inputUrls env content)).flatten = inputUrls env content := cut_flatten mem_limit [] _
    have scanned := (MergeSort_scanned env spilled).trans batching.scanned
    rw [all] at scanned
    have start : (started env disk file content num_results mem_limit).urls_scanned_ = 0 := rfl
    rw [start,UInt64.zero_add,List.length_nil,Nat.add_zero] at scanned
    dsimp only
    rw [scanned]

theorem process_run (console : Console) (env : Env) (disk : Disk) (program file_path results limit : Bytes) (more : List Bytes)
    (accepted : argumentsAccepted (atoi console results) (atoi console limit) = true) :
    let run := (TopNFreqUrls.new file_path (atoi console results) (memLimit (atoi console limit)) disk).Run env
    process console env disk (program :: file_path :: results :: limit :: more) =
      ⟨0,greeting file_path (atoi console results) (memLimit (atoi console limit)) ++
        runLines console run.2.urls_scanned_ run.1,[],run.2.disk⟩ := by
  simp only [process,main,accepted,if_true]

theorem process_refused (console : Console) (env : Env) (disk : Disk) (program file_path results limit : Bytes)
    (more : List Bytes) (refused : argumentsAccepted (atoi console results) (atoi console limit) = false) :
    process console env disk (program :: file_path :: results :: limit :: more) =
      ⟨1,greeting file_path (atoi console results) (memLimit (atoi console limit)),[ascii "Illegal arguments!"],disk⟩ := by
  simp only [process,main,refused,Bool.false_eq_true,if_false]

/-- Without an input file the first stage fails before anything is written. -/
theorem run_missing (env : Env) (disk : Disk) (file : Bytes) (missing : disk file = none) (num_results : Int32)
    (mem_limit : UInt64) : ((TopNFreqUrls.new file num_results mem_limit disk).Run env).1 = none := by
  have refused : (FileManager.new file).Open env disk = (false,{FileManager.new file with in_ := .unopened}) := by
    simp only [FileManager.Open,FileManager.new,missing,ite_self]
  simp only [TopNFreqUrls.Run,TopNFreqUrls.PartialSort,TopNFreqUrls.new,refused]

/-- Any command line with enough arguments, on any disk and under any faults: the exit
code tells whether the arguments are accepted and nothing about the run, which prints what
the program does on rows, and changes no other files than its own. -/
theorem process_outcome (console : Console) (env : Env) (disk : Disk) (program file_path results limit : Bytes)
    (more : List Bytes) :
    let exit := process console env disk (program :: file_path :: results :: limit :: more)
    (exit.code = 0 ↔ 0 < (atoi console results).toInt ∧ (atoi console limit).toInt ≠ 0) ∧
    (exit.code ≠ 0 → exit.cerr ≠ [] ∧ exit.disk = disk) ∧
    (exit.code = 0 →
      (disk file_path = none → exit.cout = greeting file_path (atoi console results) (memLimit (atoi console limit))) ∧
      (∀ content, disk file_path = some content →
        ∃ answer, Outcome env content (atoi console results).toInt.toNat (memLimit (atoi console limit)) answer ∧
          exit.cout = greeting file_path (atoi console results) (memLimit (atoi console limit)) ++
            runLines console (UInt64.ofNat (inputUrls env content).length) answer) ∧
      ∀ name, (∀ i, name ≠ OutputFileName file_path i) → exit.disk name = disk name) := by
  cases accepted : argumentsAccepted (atoi console results) (atoi console limit) with
  | false =>
    rw [process_refused console env disk program file_path results limit more accepted,← accepted_iff,accepted]
    exact ⟨by simp,fun _ => ⟨List.cons_ne_nil _ _,rfl⟩,fun zero => absurd zero (by simp)⟩
  | true =>
    have low := accepted_roomy _ _ accepted
    have positive := ((accepted_iff _ _).mp accepted).1
    rw [process_run console env disk program file_path results limit more accepted,← accepted_iff,accepted]
    refine ⟨by simp,fun other => absurd rfl other,
      fun _ => ⟨fun missing => ?_,fun content present => ?_,fun name other => ?_⟩⟩
    · dsimp only
      rw [run_missing env disk file_path missing]
      exact List.append_nil _
    · have outcome := run_outcome env disk file_path content present (atoi console results) (memLimit (atoi console limit)) low
      rw [limit_positive file_path _ _ disk positive] at outcome
      have scanned := run_scanned env disk file_path content present (atoi console results) (memLimit (atoi console limit))
        low console
      exact ⟨_,outcome,congrArg (greeting file_path (atoi console results) (memLimit (atoi console limit)) ++ ·) scanned⟩
    · exact Run_leaves env file_path (atoi console results) disk low name other

/-- A console that knows no overflow and measures no time. -/
def Console.plain : Console := ⟨fun _ => 0,fun _ => [48]⟩

/-- The arguments ` 2x` and `-1` are accepted: two results and a limit of almost 2^64 bytes. -/
theorem process_outcome_lenient :
    (process Console.plain Env.reference (oneFile [98,10,97,10,97]) [[112],[105],[32,50,120],[45,49]]).code = 0 ∧
      ∀ name, (∀ i, name ≠ OutputFileName [105] i) →
        (process Console.plain Env.reference (oneFile [98,10,97,10,97]) [[112],[105],[32,50,120],[45,49]]).disk name =
          oneFile [98,10,97,10,97] name := by
  obtain ⟨code,_,ran⟩ := process_outcome Console.plain Env.reference (oneFile [98,10,97,10,97]) [112] [105]
    [32,50,120] [45,49] []
  have zero := code.mpr (by decide +kernel)
  exact ⟨zero,(ran zero).2.2⟩

/-- The program as the README calls it, with decimal numbers, on a file whose lines hold no
tab, where nothing fails: it prints the best URLs and how many there were, and leaves no
spill file. -/
theorem command_line_exact (console : Console) (env : Env) (sound : env.faults = Faults.none) (disk : Disk)
    (program file_path content : Bytes) (present : disk file_path = some content) (num_results mem_limit_in_mb : Int32)
    (positive : 0 < num_results.toInt) (nonzero : mem_limit_in_mb.toInt ≠ 0)
    (clean : ∀ url ∈ inputUrls env content, tab ∉ url) :
    let exit := process console env disk [program,file_path,decimalInt num_results.toInt,decimalInt mem_limit_in_mb.toInt]
    exit.code = 0 ∧
    exit.cout = greeting file_path num_results (memLimit mem_limit_in_mb) ++
      runLines console (UInt64.ofNat (inputUrls env content).length)
        (some ((bestRows num_results.toInt.toNat (wrapped (inputUrls env content))).map resultLine)) ∧
    ∀ name, exit.disk name =
      if ∃ i < (cut (memLimit mem_limit_in_mb) [] (inputUrls env content)).length, name = OutputFileName file_path i then none
      else disk name := by
  have accepted := (accepted_iff num_results mem_limit_in_mb).mpr ⟨positive,nonzero⟩
  have low := accepted_roomy _ _ accepted
  have silent := silent_of_sound sound content (memLimit mem_limit_in_mb)
  have outcome := run_outcome env disk file_path content present num_results (memLimit mem_limit_in_mb) low
  rw [limit_positive file_path _ _ disk positive] at outcome
  have printed := outcome.modulo silent (fun j => sound ▸ rfl) (fun j => sound ▸ rfl) clean
  have scanned := run_scanned env disk file_path content present num_results (memLimit mem_limit_in_mb) low console
  obtain ⟨spilled,passed,_⟩ := passed_of_silent num_results present low silent
  have footprint := run_footprint present low passed
  have run := process_run console env disk program file_path (decimalInt num_results.toInt)
    (decimalInt mem_limit_in_mb.toInt) [] (by rwa [atoi_decimal,atoi_decimal])
  rw [atoi_decimal,atoi_decimal] at run
  rw [run]
  refine ⟨rfl,?_,footprint.removed⟩
  dsimp only at scanned ⊢
  rw [scanned,printed]

theorem command_line_exact_two :
    (process Console.plain Env.reference (oneFile [98,10,97,10,97]) [[112],[105],[50],[49]]).cout =
      greeting [105] 2 (memLimit 1) ++ runLines Console.plain 3 (some [[97,9,50],[98,9,49]]) := by
  have clean : ∀ url ∈ inputUrls Env.reference [98,10,97,10,97], tab ∉ url := by
    decide +kernel
  obtain ⟨_,printed,_⟩ := command_line_exact Console.plain Env.reference rfl (oneFile [98,10,97,10,97]) [112] [105]
    [98,10,97,10,97] (Function.update_self ..) 2 1 (by decide) (by decide) clean
  have urls : (inputUrls Env.reference [98,10,97,10,97]).length = 3 := by decide +kernel
  have best : (bestRows (2 : Int32).toInt.toNat (wrapped (inputUrls Env.reference [98,10,97,10,97]))).map resultLine =
      [[97,9,50],[98,9,49]] := by
    decide +kernel
  rw [urls,best] at printed
  exact printed

end TopNFreq
