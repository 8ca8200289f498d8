import TopNFreq.FaultMerge
import TopNFreq.RowExtent

/-! Whole runs under faults. The counts that the merger delivers for a file are
those that can be read from it, so a run is that without faults just when no piece
of the input is lost and every spill file is read back as it is without faults. -/
namespace TopNFreq
open Library.Text Library.InputStream Library.Loop IStream FileManager

namespace FileMerger
variable (env : Platform) {m : FileMerger} {j : Nat} {prior : Int32} {given total : List Int32}

def toCome (prior : Int32) (m : FileMerger) (j : Nat) : List Int32 :=
  if m.drained_.getD j true then [] else (rowsIn prior (m.sorted_files_.getD j .unopened)).map Prod.snd

/-- The rows of the file `j` in the heap. -/
def waiting (m : FileMerger) (j : Nat) : List ResultTuple := m.res_tuples_heap_.filter (·.file_index = j)

/-- Of all counts of the file `j` those in `given` have been delivered: one row
waits in the heap and the others are in the file, or there are no more. -/
inductive Delivering (prior : Int32) (m : FileMerger) (j : Nat) (given total : List Int32) : Prop
  | more (t : ResultTuple) (one : waiting m j = [t]) (split : total = given ++ t.cnt :: toCome prior m j)
  | ended (none : waiting m j = []) (split : total = given)

private theorem fill_cases (m : FileMerger) (pool : Arena) (i : Nat) :
    m.drained_.getD i true = true ∧ fill env (m,pool) i = (m,pool) ∨
      m.drained_.getD i true = false ∧ fill env (m,pool) i = m.refill env pool i := by
  unfold FileMerger.fill
  dsimp only
  cases asked : m.drained_.getD i true with
  | true => exact .inl ⟨rfl,rfl⟩
  | false => exact .inr ⟨rfl,rfl⟩

private theorem refill_other (m : FileMerger) (pool : Arena) (i : Nat) (apart : j ≠ i) :
    (waiting (m.refill env pool i).1 j).Perm (waiting m j) ∧
      (m.refill env pool i).1.drained_.getD j true = m.drained_.getD j true ∧
      ∀ prior, toCome prior (m.refill env pool i).1 j = toCome prior m j := by
  unfold FileMerger.refill toCome waiting
  split
  · simp only [getD_set_ne _ _ _ apart]
    exact ⟨List.Perm.refl _,trivial,fun _ => trivial⟩
  · simp only [getD_set_ne _ _ _ apart]
    refine ⟨?_,trivial,fun _ => trivial⟩
    refine ((env.queue.push_perm _ _ _).filter _).trans ?_
    rw [List.filter_cons_of_neg (by simpa using apart.symm)]

private theorem refill_own (uninit : ∀ n, (env.uninit n).cnt = prior) (given : List Int32) (m : FileMerger)
    (pool : Arena) (asked : m.drained_.getD j true = false) (nothing : waiting m j = []) :
    Delivering prior (m.refill env pool j).1 j given (given ++ toCome prior m j) := by
  have rows : toCome prior m j = (rowsIn prior (m.sorted_files_.getD j .unopened)).map Prod.snd := by
    simp only [toCome,asked,Bool.false_eq_true,if_false]
  cases read : readRow prior (m.sorted_files_.getD j .unopened) with
  | none =>
    rw [← uninit pool.requests] at read
    have same := NextResultTupleInFile_none env _ pool _ read
    rw [uninit] at read
    apply Delivering.ended
    · simp only [FileMerger.refill,same]
      exact nothing
    · rw [rows,rowsIn_none read,List.map_nil,List.append_nil]
  | some pair =>
    obtain ⟨row,next⟩ := pair
    have inside : j < m.sorted_files_.length := by
      by_contra outside
      rw [List.getD_eq_getElem?_getD,List.getElem?_eq_none (Nat.le_of_not_lt outside),Option.getD_none,
        readRow_dead prior _ rfl] at read
      cases read
    rw [← uninit pool.requests] at read
    have same := NextResultTupleInFile_some env _ next pool _ row read
    rw [uninit] at read
    apply Delivering.more {(env.uninit pool.requests) with
      str := (pool.deposit env row.1).1, cnt := row.2, file_index := j}
    · simp only [FileMerger.refill,same]
      apply List.perm_singleton.mp
      refine ((env.queue.push_perm _ _ _).filter _).trans ?_
      rw [List.filter_cons_of_pos (by simp)]
      exact .of_eq (congrArg (List.cons _) nothing)
    · simp only [FileMerger.refill,same,toCome,asked,getD_set_self _ _ inside,rowsIn_some read,List.map_cons,
        Bool.false_eq_true,if_false]

private theorem Delivering.other (delivering : Delivering prior m j given total) (pool : Arena) (i : Nat)
    (apart : j ≠ i) : Delivering prior (m.refill env pool i).1 j given total := by
  obtain ⟨heap,_,rest⟩ := refill_other env m pool i apart
  cases delivering with
  | more t one split =>
    rw [one] at heap
    exact .more t (List.perm_singleton.mp heap) (by rw [rest,split])
  | ended none split =>
    rw [none] at heap
    exact .ended (List.perm_nil.mp heap) split

private theorem Delivering.fill (delivering : Delivering prior m j given total) (pool : Arena) (indexes : List Nat)
    (outside : j ∉ indexes) : Delivering prior (indexes.foldl (fill env) (m,pool)).1 j given total := by
  induction indexes generalizing m pool with
  | nil => exact delivering
  | cons i rest ih =>
    rw [List.mem_cons,not_or] at outside
    rw [List.foldl_cons]
    rcases fill_cases env m pool i with ⟨_,stays⟩ | ⟨_,reads⟩
    · rw [stays]
      exact ih delivering pool outside.2
    · rw [reads]
      exact ih (delivering.other env pool i outside.1) _ outside.2

theorem delivering_fill (uninit : ∀ n, (env.uninit n).cnt = prior) (pool : Arena) (indexes : List Nat)
    (inside : j ∈ indexes) (distinct : indexes.Nodup) (asked : m.drained_.getD j true = false)
    (nothing : waiting m j = []) :
    Delivering prior (indexes.foldl (fill env) (m,pool)).1 j [] (toCome prior m j) := by
  induction indexes generalizing m pool with
  | nil => cases inside
  | cons i rest ih =>
    obtain ⟨fresh,distinct⟩ := List.nodup_cons.mp distinct
    rw [List.foldl_cons]
    by_cases same : j = i
    · subst same
      rcases fill_cases env m pool j with ⟨drained,_⟩ | ⟨_,reads⟩
      · rw [drained] at asked
        cases asked
      · rw [reads]
        exact (refill_own env uninit [] m pool asked nothing).fill env _ rest fresh
    · have later := (List.mem_cons.mp inside).resolve_left same
      rcases fill_cases env m pool i with ⟨_,stays⟩ | ⟨_,reads⟩
      · rw [stays]
        exact ih pool later distinct asked nothing
      · obtain ⟨heap,flag,rest⟩ := refill_other env m pool i same
        rw [reads,← Prod.mk.eta (p := m.refill env pool i),← rest]
        rw [nothing] at heap
        exact ih _ later distinct (flag.trans asked) (List.perm_nil.mp heap)

theorem Delivering.next (delivering : Delivering prior m j given total) (uninit : ∀ n, (env.uninit n).cnt = prior)
    (pool : Arena) (res : ResultTuple) :
    (m.NextResultTuple env pool res).1 = false ∧ m.res_tuples_heap_ = [] ∧
        (m.NextResultTuple env pool res).2.1 = m ∨
      (m.NextResultTuple env pool res).1 = true ∧ Delivering prior (m.NextResultTuple env pool res).2.1 j
        (given ++ if (m.NextResultTuple env pool res).2.2.2.file_index = j then
          [(m.NextResultTuple env pool res).2.2.2.cnt] else []) total := by
  unfold NextResultTuple
  split
  · rename_i empty
    exact .inl ⟨rfl,empty,rfl⟩
  · rename_i top rest shape
    right
    dsimp only
    have heap : (waiting {m with res_tuples_heap_ := env.queue.pop (StringLess pool.memory) (top :: rest)} j).Perm
        (rest.filter (·.file_index = j)) := (env.queue.pop_perm _ _ _).filter _
    have stays : toCome prior {m with res_tuples_heap_ := env.queue.pop (StringLess pool.memory) (top :: rest)} j =
        toCome prior m j := rfl
    have whole : waiting m j = (top :: rest).filter (·.file_index = j) := by rw [waiting,shape]
    by_cases mine : top.file_index = j
    · rw [List.filter_cons_of_pos (by simpa using mine)] at whole
      cases delivering with
      | ended none => rw [none] at whole; cases whole
      | more t one split =>
        rw [one] at whole
        obtain ⟨rfl,fresh⟩ := List.cons.inj whole
        rw [← fresh] at heap
        rw [if_pos mine]
        split
        · rename_i drained
          rw [mine] at drained
          refine ⟨rfl,.ended (List.perm_nil.mp heap) ?_⟩
          rw [split,toCome,if_pos drained]
        · rename_i asked
          rw [mine] at asked ⊢
          refine ⟨rfl,?_⟩
          have refilled := refill_own env uninit (given ++ [t.cnt]) {m with
            res_tuples_heap_ := env.queue.pop (StringLess pool.memory) (t :: rest)} pool
            (Bool.eq_false_iff.mpr asked) (List.perm_nil.mp heap)
          rw [stays,List.append_assoc,List.singleton_append,← split] at refilled
          exact refilled
    · rw [List.filter_cons_of_neg (by simpa using mine)] at whole
      rw [← whole] at heap
      rw [if_neg mine,List.append_nil]
      have popped : Delivering prior
          {m with res_tuples_heap_ := env.queue.pop (StringLess pool.memory) (top :: rest)} j given total := by
        cases delivering with
        | more t one split =>
          rw [one] at heap
          exact .more t (List.perm_singleton.mp heap) split
        | ended none split =>
          rw [none] at heap
          exact .ended (List.perm_nil.mp heap) split
      split
      · exact ⟨rfl,popped⟩
      · exact ⟨rfl,popped.other env pool _ (Ne.symm mine)⟩

end FileMerger

namespace TopNFreqUrls
variable (env : Env) {j : Nat} {prior : Int32}

private theorem body_finished (b : MergeState) : (MergeSort.body env b).finished = b.finished := by
  unfold MergeSort.body
  split
  · rfl
  · split <;> rfl

/-- The counts of the file `j` among the rows that have been merged. -/
def countsFrom (j : Nat) (taken : List Entry) : List Int32 :=
  (taken.filter (·.2.2 = j)).map fun e => e.2.1

theorem countsFrom_snoc (taken : List Entry) (e : Entry) :
    countsFrom j (taken ++ [e]) = countsFrom j taken ++ if e.2.2 = j then [e.2.1] else [] := by
  by_cases same : e.2.2 = j <;> simp [countsFrom,same]

theorem mergedRows_counts (uninit : ∀ n, (env.uninit n).cnt = prior) (self : TopNFreqUrls) (total : List Int32)
    (opened : FileMerger.Delivering prior (MergeSort.start env self).self.file_merger_ j [] total) :
    countsFrom j (mergedRows env self) = total := by
  have invariant := loop_invariant (MergeSort.step env)
    (fun s => (s.finished = true → s.self.file_merger_.res_tuples_heap_ = []) ∧
      FileMerger.Delivering prior s.self.file_merger_ j (countsFrom j s.taken) total) ?_ (MergeSort.start env self)
    ⟨by simp [MergeSort.start],opened⟩ (MergeSort.rounds (MergeSort.start env self))
  · obtain ⟨ended,delivering⟩ := invariant
    have empty := ended (merge_ended self)
    cases delivering with
    | more t one => simp [FileMerger.waiting,empty] at one
    | ended _ split => exact split.symm
  · rintro s next ⟨_,delivering⟩ again
    have delivered := delivering.next env.toPlatform uninit s.self.arena s.next_tuple
    unfold MergeSort.step at again
    split at again
    · cases again
    · split at again <;> rename_i run <;> rw [run] at delivered <;> cases again
      · rcases delivered with ⟨_,empty,same⟩ | ⟨answer,_⟩
        · dsimp only at same
          subst same
          exact ⟨fun _ => empty,delivering⟩
        · cases answer
      · rename_i going _ after arena top
        rcases delivered with ⟨answer,_⟩ | ⟨_,kept⟩
        · cases answer
        · rw [body_file_merger,body_taken,body_finished,countsFrom_snoc]
          exact ⟨fun ended => absurd ended going,kept⟩

/-- The URLs that a run has read, the rows it has merged and the results. -/
structure Account where
  urls : List Bytes
  rows : List Entry
  results : List (Bytes × Int32)
deriving DecidableEq

/-- The account of a run, `none` when a stage answers false. -/
def account (env : Env) (self : TopNFreqUrls) : Option Account :=
  match self.PartialSort env with
  | (false,_) => none
  | (true,spilled) =>
    match spilled.MergeSort env with
    | (false,_,_) => none
    | (true,final,results) => some ⟨urlsOf (self.file_mgr_.Open env self.disk).2.in_,mergedRows env spilled,
        results.map (ResultTuple.view final.arena.memory)⟩

theorem MergeSort_true (self : TopNFreqUrls) : (self.MergeSort env).1 = true := by
  unfold MergeSort
  generalize MergeSort.head env self _ = s
  unfold MergeSort.finish
  generalize (if s.curr_tuple.IsEmpty then (s.self,s.topN_tuples)
    else s.self.UpdateHeap env s.curr_tuple s.topN_tuples) = offered
  dsimp only
  split <;> rfl

theorem account_failed (self : TopNFreqUrls) (failed : (self.PartialSort env).1 = false) :
    account env self = none := by
  unfold account
  rcases run : self.PartialSort env with ⟨_ | _,spilled⟩
  · rfl
  · rw [run] at failed
    cases failed

theorem Run_failed (self : TopNFreqUrls) (failed : (self.PartialSort env).1 = false) : (self.Run env).1 = none := by
  unfold Run
  rcases run : self.PartialSort env with ⟨_ | _,spilled⟩
  · rfl
  · rw [run] at failed
    cases failed

theorem account_passed (self spilled : TopNFreqUrls) (passed : self.PartialSort env = (true,spilled)) :
    account env self = some ⟨urlsOf (self.file_mgr_.Open env self.disk).2.in_,mergedRows env spilled,
      (spilled.MergeSort env).2.2.map (ResultTuple.view (spilled.MergeSort env).2.1.arena.memory)⟩ := by
  have answered := MergeSort_true env spilled
  unfold account
  rw [passed]
  rcases run : spilled.MergeSort env with ⟨_ | _,final,results⟩
  · rw [run] at answered
    cases answered
  · simp only [run]

def spillStream (faults : Faults) (j : Nat) (batch : List Bytes) : IStream :=
  if faults.openSpill j then .unopened else .opened ((batchRows batch).flatMap rowBytes) (faults.readSpill j)

theorem openSpill_batch (disk : Disk) (base_file_name : Bytes) (batch : List Bytes)
    (present : disk (OutputFileName base_file_name j) = some ((batchRows batch).flatMap rowBytes)) :
    FileMerger.openSpill env disk base_file_name j = spillStream env.faults j batch := by
  unfold FileMerger.openSpill spillStream
  cases env.faults.openSpill j with
  | true => rfl
  | false => simp only [Bool.false_eq_true,if_false,present]

theorem spillStream_shown (faults : Faults) (batch : List Bytes) :
    spillStream faults j batch = spillStream Faults.none j batch ∨ (spillStream faults j batch).good = false ∨
      Shown (spillStream faults j batch) (spillStream Faults.none j batch) := by
  have sound : spillStream Faults.none j batch = opened ((batchRows batch).flatMap rowBytes) none := rfl
  rw [sound]
  unfold spillStream
  generalize (batchRows batch).flatMap rowBytes = text
  cases faults.openSpill j with
  | true => exact .inr (.inl rfl)
  | false =>
    rw [if_neg Bool.false_ne_true]
    cases faults.readSpill j with
    | none => exact .inl rfl
    | some position =>
      by_cases behind : text.length < position
      · exact .inl (opened_behind text position behind)
      · have cut : opened text (some position) = ready [] (text.take position) true := by
          simp [opened,Nat.le_of_not_lt behind]
        have whole : opened text none = ready [] (text.take position ++ text.drop position) false := by
          rw [List.take_append_drop]
          rfl
        rw [cut,whole]
        exact .inr (.inr (.intro _ _ _ _))

/-- The spill file of a batch is read as if nothing failed just when it can be opened and its extent
be read, or it holds no row. -/
theorem spillStream_sameRows (faults : Faults) (batch : List Bytes) :
    SameRows (spillStream faults j batch) (spillStream Faults.none j batch) ↔
      (faults.openSpill j = true → batchRows batch = []) ∧
      (faults.openSpill j = false → ∀ position, faults.readSpill j = some position →
        extent ((batchRows batch).flatMap rowBytes) ≤ position) := by
  have sound : spillStream Faults.none j batch = ready [] ((batchRows batch).flatMap rowBytes) false := rfl
  rw [sound]
  unfold spillStream
  cases faults.openSpill j with
  | true =>
    simp only [if_true,true_imp_iff,Bool.true_eq_false,false_imp_iff,and_true]
    have unopened (prior : Int32) : rowsIn prior .unopened = [] := rowsIn_dead prior rfl
    constructor
    · intro same
      by_contra some_rows
      obtain ⟨r,rows,shape⟩ := List.exists_cons_of_ne_nil some_rows
      refine rowsIn_row [] 0 ?_ ((same 0).symm.trans (unopened 0))
      rw [shape]
      simp [rowBytes,newline,tab]
    · intro none prior
      rw [unopened,none]
      exact (rowsIn_none ((readRow_none _ _).mpr (ReadLine_nil [] [] false MAX_URL_LEN tab rfl).1)).symm
  | false =>
    simp only [Bool.false_eq_true,if_false,false_imp_iff,true_imp_iff,true_and]
    generalize (batchRows batch).flatMap rowBytes = text
    cases faults.readSpill j with
    | none => exact iff_of_true (fun prior => rfl) (fun position same => by cases same)
    | some position =>
      simp only [Option.some.injEq,forall_eq']
      rcases Nat.lt_or_ge text.length position with behind | inside
      · rw [opened_behind text position behind]
        exact iff_of_true (fun prior => rfl) ((extent_le text).trans behind)
      · have cut : opened text (some position) = ready [] (text.take position) true := by
          simp [opened,inside]
        have whole := rowsIn_extent (text.take position) (text.drop position) [] []
        rw [List.take_append_drop,List.length_take_of_le inside] at whole
        rw [cut]
        exact whole

theorem mergedRows_file (uninit : ∀ n, (env.uninit n).cnt = prior) (self : TopNFreqUrls) (base_file_name : Bytes)
    (merger : self.file_merger_ = .new base_file_name) (bound : j < self.file_mgr_.TotalOutputFiles)
    (batch : List Bytes)
    (present : self.disk (OutputFileName base_file_name j) = some ((batchRows batch).flatMap rowBytes)) :
    countsFrom j (mergedRows env self) = (rowsIn prior (spillStream env.faults j batch)).map Prod.snd := by
  have asked := (unread_drained env self base_file_name j).mpr bound
  have stream := (unread_stream env self base_file_name j bound).trans
    (openSpill_batch env self.disk base_file_name batch present)
  apply mergedRows_counts env uninit
  have filled := FileMerger.delivering_fill env.toPlatform uninit self.arena
    (List.range self.file_mgr_.TotalOutputFiles) (List.mem_range.mpr bound) List.nodup_range asked rfl
  rw [FileMerger.toCome,asked,if_neg Bool.false_ne_true,stream] at filled
  unfold MergeSort.start
  rw [Open_unread env self base_file_name merger]
  exact filled

/-- A fault that the first stage meets and reports: the input cannot be opened, or
spilling the batches meets a fault. -/
def FaultReported (env : Env) (content : Bytes) (mem_limit : UInt64) : Prop :=
  env.faults.openInput = true ∨ FaultMet env.faults (cut mem_limit [] (inputUrls env content))

section FirstStage
variable {disk : Disk} {file content : Bytes} (num_results : Int32) {mem_limit : UInt64}

theorem PartialSort_reported (present : disk file = some content) (low : 1024 ≤ mem_limit.toNat)
    (reported : FaultReported env content mem_limit) :
    ((TopNFreqUrls.new file num_results mem_limit disk).PartialSort env).1 = false := by
  cases opens : env.faults.openInput with
  | true => simp [PartialSort,FileManager.Open,opens]
  | false =>
    rcases PartialSort_new env disk file content num_results mem_limit opens present low with
      ⟨failed,_⟩ | ⟨_,sound,_⟩
    · exact failed
    · exact absurd (reported.resolve_left (by simp [opens])) sound

theorem PartialSort_passed (present : disk file = some content) (low : 1024 ≤ mem_limit.toNat)
    (silent : ¬ FaultReported env content mem_limit) :
    ∃ spilled, (TopNFreqUrls.new file num_results mem_limit disk).PartialSort env = (true,spilled) ∧
      spilled.file_merger_ = .new file ∧
      spilled.file_mgr_.TotalOutputFiles = (cut mem_limit [] (inputUrls env content)).length ∧
      ∀ j batch, (cut mem_limit [] (inputUrls env content))[j]? = some batch →
        spilled.disk (OutputFileName file j) = some ((batchRows batch).flatMap rowBytes) := by
  rw [FaultReported,not_or,Bool.not_eq_true] at silent
  rcases PartialSort_new env disk file content num_results mem_limit silent.1 present low with
    ⟨_,fault⟩ | ⟨passed,_,batches,spilled,_,batching⟩
  · exact absurd fault silent.2
  have all : cut mem_limit [] (inputUrls env content) = batches :=
    batching.cutting.trans (List.append_nil batches)
  rw [all]
  refine ⟨_,Prod.ext passed rfl,batching.file_merger_,?_,fun j batch found => ?_⟩
  · rw [FileManager.TotalOutputFiles,batching.files,batching.exact,List.length_map]
  · obtain ⟨bound,_⟩ := List.getElem?_eq_some_iff.mp found
    have written := batching.disk j (by rwa [batching.exact,List.length_map])
    rwa [batching.exact,List.getD_eq_getElem?_getD,List.getElem?_map,found] at written

/-- No read of the input fails up to the byte behind its last piece, each spill file with a row can
be opened, and no read of it fails within its extent. -/
structure Intact (faults : Faults) (content : Bytes) (batches : List (List Bytes)) : Prop where
  pieces : ∀ position, faults.readInput = some position → position ≤ content.length →
    PiecesBefore content position
  opens : ∀ j batch, batches[j]? = some batch → faults.openSpill j = true → batchRows batch = []
  reads : ∀ j batch, batches[j]? = some batch → faults.openSpill j = false →
    ∀ position, faults.readSpill j = some position → extent ((batchRows batch).flatMap rowBytes) ≤ position

theorem Intact.sameRows {faults : Faults} {batches : List (List Bytes)} {content : Bytes}
    (intact : Intact faults content batches) {batch : List Bytes} (found : batches[j]? = some batch) :
    SameRows (spillStream faults j batch) (spillStream Faults.none j batch) :=
  (spillStream_sameRows faults batch).mpr ⟨intact.opens j batch found,intact.reads j batch found⟩

private theorem urls_read (mem_limit : UInt64) (present : disk file = some content) (opens : env.faults.openInput = false) :
    urlsOf ((TopNFreqUrls.new file num_results mem_limit disk).file_mgr_.Open env disk).2.in_ =
      inputUrls env content := by
  rw [Open_started env disk file content num_results mem_limit opens present]
  rfl

theorem account_intact (present : disk file = some content) (low : 1024 ≤ mem_limit.toNat)
    (silent : ¬ FaultReported env content mem_limit)
    (intact : Intact env.faults content (cut mem_limit [] (inputUrls env content))) :
    account env (TopNFreqUrls.new file num_results mem_limit disk) =
        account env.faultless (TopNFreqUrls.new file num_results mem_limit disk) ∧
      ((TopNFreqUrls.new file num_results mem_limit disk).Run env).1 =
        ((TopNFreqUrls.new file num_results mem_limit disk).Run env.faultless).1 := by
  obtain ⟨spilled,passed,merger,count,written⟩ :=
    PartialSort_passed env num_results present low silent
  have whole : inputUrls env content = (linesOf content).flatMap chop :=
    (urlsOf_opened content env.faults.readInput).mpr intact.pieces
  have again := PartialSort_repeated env disk file content num_results mem_limit present whole spilled passed
  rw [account_passed env _ spilled passed,account_passed env.faultless _ spilled again]
  have twins := start_twins env spilled file merger fun i bound => by
    obtain ⟨batch,found⟩ : ∃ batch, (cut mem_limit [] (inputUrls env content))[i]? = some batch :=
      ⟨_,List.getElem?_eq_getElem (count ▸ bound)⟩
    rw [openSpill_batch env spilled.disk file batch (written i batch found),
      openSpill_batch env.faultless spilled.disk file batch (written i batch found)]
    exact intact.sameRows found
  obtain ⟨merged,results,arenas⟩ := MergeSort_twins env spilled twins
  have opens : env.faults.openInput = false := Bool.not_eq_true _ ▸ (not_or.mp silent).1
  have read := urls_read env num_results mem_limit present opens
  have others := urls_read env.faultless num_results mem_limit present rfl
  rw [inputUrls_sound env.faultless rfl content,← whole] at others
  rw [merged,results,arenas]
  refine ⟨congrArg (fun urls => some (Account.mk urls _ _)) (read.trans others.symm),?_⟩
  simp only [Run,passed,again,results,arenas]

theorem account_equal (uninit : ∀ n, (env.uninit n).cnt = prior) (present : disk file = some content)
    (low : 1024 ≤ mem_limit.toNat) (silent : ¬ FaultReported env content mem_limit)
    (same : account env (TopNFreqUrls.new file num_results mem_limit disk) = none ∨
      account env (TopNFreqUrls.new file num_results mem_limit disk) =
        account env.faultless (TopNFreqUrls.new file num_results mem_limit disk)) :
    inputUrls env content = (linesOf content).flatMap chop ∧
      ∀ j batch, (cut mem_limit [] (inputUrls env content))[j]? = some batch →
        rowsIn prior (spillStream env.faults j batch) = rowsIn prior (spillStream Faults.none j batch) := by
  obtain ⟨spilled,passed,merger,count,written⟩ :=
    PartialSort_passed env num_results present low silent
  have unreported : ¬ FaultReported env.faultless content mem_limit := by
    simp [FaultReported,FaultMet,Env.faultless,Faults.none]
  obtain ⟨other,again,_⟩ := PartialSort_passed env.faultless num_results present low unreported
  rw [account_passed env _ spilled passed,account_passed env.faultless _ other again] at same
  have equal := same.resolve_left (by simp)
  obtain ⟨read,merged,_⟩ : _ ∧ _ ∧ _ := by
    simpa only [Option.some.injEq,Account.mk.injEq] using equal
  have opens : env.faults.openInput = false := Bool.not_eq_true _ ▸ (not_or.mp silent).1
  have whole : inputUrls env content = (linesOf content).flatMap chop := by
    rw [← inputUrls_sound env.faultless rfl content]
    rw [show (TopNFreqUrls.new file num_results mem_limit disk).disk = disk from rfl,
      urls_read env num_results mem_limit present opens,urls_read env.faultless num_results mem_limit present rfl] at read
    exact read
  have twin := PartialSort_repeated env disk file content num_results mem_limit present whole spilled passed
  rw [twin] at again
  cases again
  refine ⟨whole,fun j batch found => ?_⟩
  have bound : j < spilled.file_mgr_.TotalOutputFiles := count ▸ (List.getElem?_eq_some_iff.mp found).1
  have counts := mergedRows_file env uninit spilled file merger bound batch (written j batch found)
  rw [merged,mergedRows_file env.faultless uninit spilled file merger bound batch (written j batch found)] at counts
  rcases spillStream_shown env.faults batch with alike | shown
  · rw [alike]
  · exact rowsIn_counts prior _ _ shown counts.symm

end FirstStage

end TopNFreqUrls


def Env.withLocals (env : Env) (uninit : Nat → ResultTuple) : Env := {env with uninit}

open TopNFreqUrls

/-- Whatever uninitialised locals hold, a stage answers false and `Run` prints no results, or
the run is the one without faults and prints the same. -/
def NeverSilent (env : Env) (self : TopNFreqUrls) : Prop :=
  ∀ uninit,
    account (env.withLocals uninit) self = none ∧ (self.Run (env.withLocals uninit)).1 = none ∨
    account (env.withLocals uninit) self = account (env.withLocals uninit).faultless self ∧
      (self.Run (env.withLocals uninit)).1 = (self.Run (env.withLocals uninit).faultless).1

/-- A run is never silently wrong just when a fault is reported, or none hits a part of a
file that is needed. -/
theorem faults_never_silent (env : Env) (disk : Disk) (file content : Bytes) (present : disk file = some content)
    (num_results : Int32) (mem_limit : UInt64) (low : 1024 ≤ mem_limit.toNat) :
    NeverSilent env (TopNFreqUrls.new file num_results mem_limit disk) ↔
      FaultReported env content mem_limit ∨
        Intact env.faults content (cut mem_limit [] (inputUrls env content)) := by
  by_cases reported : FaultReported env content mem_limit
  · refine iff_of_true (fun uninit => .inl ?_) (.inl reported)
    have failed := PartialSort_reported (env.withLocals uninit) num_results present low reported
    exact ⟨account_failed _ _ failed,Run_failed _ _ failed⟩
  rw [or_iff_right reported]
  constructor
  · intro never
    have equal (prior : Int32) := account_equal (env.withLocals fun _ => {(default : ResultTuple) with cnt := prior})
      num_results (fun _ => rfl) present low reported ((never _).imp And.left And.left)
    have files (j : Nat) (batch : List Bytes) (found : (cut mem_limit [] (inputUrls env content))[j]? = some batch) :=
      (spillStream_sameRows env.faults batch).mp fun prior => (equal prior).2 j batch found
    exact ⟨(urlsOf_opened content env.faults.readInput).mp (equal 0).1,fun j batch found => (files j batch found).1,
      fun j batch found => (files j batch found).2⟩
  · intro intact uninit
    exact .inr (account_intact (env.withLocals uninit) num_results present low reported intact)

def Env.spillLost : Env := {Env.reference with faults := {Faults.none with openSpill := fun i => i == 0}}

/-- The line `a`: its only row is lost, no stage says so and no result is printed. -/
theorem spill_silently_lost :
    ¬ NeverSilent Env.spillLost (TopNFreqUrls.new [105] 1 1024 (oneFile [97,10])) ∧
    ((TopNFreqUrls.new [105] 1 1024 (oneFile [97,10])).Run Env.spillLost).1 = some [] ∧
    ((TopNFreqUrls.new [105] 1 1024 (oneFile [97,10])).Run Env.spillLost.faultless).1 = some [[97,9,49]] := by
  refine ⟨fun never => ?_,by decide +kernel,by decide +kernel⟩
  have differ : ¬ (account (Env.spillLost.withLocals default) (TopNFreqUrls.new [105] 1 1024 (oneFile [97,10])) = none ∨
      account (Env.spillLost.withLocals default) (TopNFreqUrls.new [105] 1 1024 (oneFile [97,10])) =
        account (Env.spillLost.withLocals default).faultless (TopNFreqUrls.new [105] 1 1024 (oneFile [97,10]))) := by
    decide +kernel
  exact differ ((never default).imp And.left And.left)

/-- Reads of the input fail from its byte 6 on, those of a spill file from `spill` on. -/
def Env.endLost (spill : Option Nat) : Env :=
  {Env.reference with faults := {Faults.none with readInput := some 6, readSpill := fun _ => spill}}

/-- Nothing can be read behind the last line, nor behind the last row. -/
theorem faults_never_silent_six :
    NeverSilent (Env.endLost (some 8)) (TopNFreqUrls.new [105] 1 1024 (oneFile [98,10,97,10,98,10])) := by
  refine (faults_never_silent (Env.endLost (some 8)) (oneFile [98,10,97,10,98,10]) [105] [98,10,97,10,98,10]
    (Function.update_self ..) 1 1024 (by decide)).mpr (.inr ⟨fun position at_ _ => ?_,
      fun _ _ _ fails => Bool.noConfusion fails,fun j batch found _ position at_ => ?_⟩)
  · cases at_
    rw [PiecesBefore,← urlsOf_holds _ _ (holds_opened _),← urlsOf_holds _ _ (holds_opened _)]
    decide +kernel
  · cases at_
    have batches : cut 1024 [] (inputUrls (Env.endLost (some 8)) [98,10,97,10,98,10]) = [[[98],[97],[98]]] := by decide +kernel
    rw [batches] at found
    have only := List.mem_singleton.mp (List.mem_of_getElem? found)
    have rows : batchRows [[98],[97],[98]] = [([97],1),([98],2)] := by decide +kernel
    have readable : ∀ r ∈ ([([97],1),([98],2)] : List (Bytes × Int32)), RowReadable r := by
      simp only [List.forall_mem_cons]
      exact ⟨⟨by decide,by decide,by decide⟩,⟨by decide,by decide,by decide⟩,by simp⟩
    rw [only,rows,extent_rows _ readable]
    decide

end TopNFreq
