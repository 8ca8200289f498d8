import TopNFreq.EndToEnd
import TopNFreq.FaultSpill
import TopNFreq.FileRows

/-! The second stage under faults. A file whose rows are read back as they are
without faults makes no difference, and nothing else about a file does. -/
namespace TopNFreq
open Library.Text Library.InputStream Library.Loop IStream FileManager

def SameRows (in_ other : IStream) : Prop := ∀ prior, rowsIn prior in_ = rowsIn prior other

theorem SameRows.cases {in_ other : IStream} (same : SameRows in_ other) (prior : Int32) :
    readRow prior in_ = none ∧ readRow prior other = none ∨
      ∃ row next later, readRow prior in_ = some (row,next) ∧ readRow prior other = some (row,later) ∧
        SameRows next later := by
  have rows := same prior
  cases first : readRow prior in_ with
  | none =>
    rw [rowsIn_none first] at rows
    cases second : readRow prior other with
    | none => exact .inl ⟨rfl,rfl⟩
    | some pair =>
      obtain ⟨row,next⟩ := pair
      rw [rowsIn_some second] at rows
      cases rows
  | some pair =>
    obtain ⟨row,next⟩ := pair
    rw [rowsIn_some first] at rows
    cases second : readRow prior other with
    | none => simp [rowsIn_none second] at rows
    | some pair =>
      obtain ⟨found,later⟩ := pair
      rw [rowsIn_some second] at rows
      obtain ⟨rfl,_⟩ := List.cons.inj rows
      refine .inr ⟨_,_,_,rfl,rfl,fun value => ?_⟩
      -- The streams behind the row do not depend on the value either.
      rcases readRow_prior prior value in_ with ⟨nothing,_⟩ | ⟨_,_,_,_,one,another⟩
      · rw [first] at nothing
        cases nothing
      rcases readRow_prior prior value other with ⟨nothing,_⟩ | ⟨_,_,_,_,two,others⟩
      · rw [second] at nothing
        cases nothing
      rw [first] at one
      rw [second] at two
      cases one
      cases two
      have all := same value
      rw [rowsIn_some another,rowsIn_some others] at all
      exact (List.cons.inj all).2

namespace FileMerger

/-- Two mergers that differ in streams only, which have the same rows or are drained. -/
structure Twin (m other : FileMerger) : Prop where
  base_file_name_ : other.base_file_name_ = m.base_file_name_
  drained_ : other.drained_ = m.drained_
  res_tuples_heap_ : other.res_tuples_heap_ = m.res_tuples_heap_
  test_mode : other.test_mode = m.test_mode
  size : other.sorted_files_.length = m.sorted_files_.length
  streams : ∀ i, m.drained_.getD i true = false →
    SameRows (m.sorted_files_.getD i .unopened) (other.sorted_files_.getD i .unopened)

variable (env : Platform)

theorem Twin.refill {m other : FileMerger} (twin : Twin m other) (pool : Arena) (i : Nat)
    (asked : m.drained_.getD i true = false) :
    Twin (m.refill env pool i).1 (other.refill env pool i).1 ∧
      (other.refill env pool i).2 = (m.refill env pool i).2 := by
  have inside : i < m.drained_.length := by
    by_contra outside
    simp [List.getD_eq_getElem?_getD,Nat.le_of_not_lt outside] at asked
  unfold FileMerger.refill
  rcases (twin.streams i asked).cases (env.uninit pool.requests).cnt with
    ⟨first,second⟩ | ⟨row,next,later,first,second,kept⟩
  · rw [NextResultTupleInFile_none env _ pool _ first,NextResultTupleInFile_none env _ pool _ second]
    refine ⟨⟨twin.base_file_name_,by simp only [twin.drained_],twin.res_tuples_heap_,twin.test_mode,
      by simp only [List.length_set,twin.size],fun j flag => ?_⟩,rfl⟩
    by_cases same : j = i
    · rw [same,getD_set_self _ _ inside] at flag
      cases flag
    · rw [getD_set_ne _ _ _ same] at flag
      rw [getD_set_ne _ _ _ same,getD_set_ne _ _ _ same]
      exact twin.streams j flag
  · rw [NextResultTupleInFile_some env _ next pool _ row first,NextResultTupleInFile_some env _ later pool _ row second]
    refine ⟨⟨twin.base_file_name_,twin.drained_,by simp only [twin.res_tuples_heap_],twin.test_mode,
      by simp only [List.length_set,twin.size],fun j flag => ?_⟩,rfl⟩
    dsimp only
    by_cases same : j = i
    · subst same
      rcases Nat.lt_or_ge j m.sorted_files_.length with bound | beyond
      · rw [getD_set_self _ _ bound,getD_set_self _ _ (twin.size ▸ bound)]
        exact kept
      · rw [List.set_eq_of_length_le beyond,List.set_eq_of_length_le (twin.size ▸ beyond)]
        exact twin.streams j flag
    · rw [getD_set_ne _ _ _ same,getD_set_ne _ _ _ same]
      exact twin.streams j flag

theorem Twin.fill {m other : FileMerger} (twin : Twin m other) (pool : Arena) (indexes : List Nat) :
    Twin (indexes.foldl (fill env) (m,pool)).1 (indexes.foldl (fill env) (other,pool)).1 ∧
      (indexes.foldl (fill env) (other,pool)).2 = (indexes.foldl (fill env) (m,pool)).2 := by
  induction indexes generalizing m other pool with
  | nil => exact ⟨twin,rfl⟩
  | cons i rest ih =>
    rw [List.foldl_cons,List.foldl_cons]
    cases asked : m.drained_.getD i true with
    | true =>
      have flag := asked
      rw [← twin.drained_] at flag
      have stays : FileMerger.fill env (m,pool) i = (m,pool) := by simp only [FileMerger.fill,asked,if_true]
      have otherStays : FileMerger.fill env (other,pool) i = (other,pool) := by
        simp only [FileMerger.fill,flag,if_true]
      rw [stays,otherStays]
      exact ih twin pool
    | false =>
      have flag := asked
      rw [← twin.drained_] at flag
      have reads : FileMerger.fill env (m,pool) i = m.refill env pool i := by
        simp only [FileMerger.fill,asked,Bool.false_eq_true,if_false]
      have otherReads : FileMerger.fill env (other,pool) i = other.refill env pool i := by
        simp only [FileMerger.fill,flag,Bool.false_eq_true,if_false]
      obtain ⟨kept,same⟩ := twin.refill env pool i asked
      rw [reads,otherReads,← Prod.mk.eta (p := other.refill env pool i),same]
      exact ih kept _

theorem Twin.next {m other : FileMerger} (twin : Twin m other) (pool : Arena) (res : ResultTuple) :
    Twin (m.NextResultTuple env pool res).2.1 (other.NextResultTuple env pool res).2.1 ∧
      (other.NextResultTuple env pool res).1 = (m.NextResultTuple env pool res).1 ∧
      (other.NextResultTuple env pool res).2.2 = (m.NextResultTuple env pool res).2.2 := by
  unfold NextResultTuple
  rw [twin.res_tuples_heap_]
  cases m.res_tuples_heap_ with
  | nil => exact ⟨twin,rfl,rfl⟩
  | cons top rest =>
    have popped : Twin {m with res_tuples_heap_ := env.queue.pop (StringLess pool.memory) (top :: rest)}
        {other with res_tuples_heap_ := env.queue.pop (StringLess pool.memory) (top :: rest)} :=
      ⟨twin.base_file_name_,twin.drained_,rfl,twin.test_mode,twin.size,twin.streams⟩
    cases asked : m.drained_.getD top.file_index true with
    | true =>
      have flag := asked
      rw [← twin.drained_] at flag
      simp only [asked,flag,if_true]
      exact ⟨popped,trivial,trivial⟩
    | false =>
      have flag := asked
      rw [← twin.drained_] at flag
      simp only [asked,flag,Bool.false_eq_true,if_false]
      obtain ⟨kept,same⟩ := popped.refill env pool top.file_index asked
      exact ⟨kept,trivial,by rw [same]⟩

end FileMerger

namespace TopNFreqUrls
variable (env : Env)

structure Twins (s other : MergeState) : Prop where
  merger : FileMerger.Twin s.self.file_merger_ other.self.file_merger_
  same : other = {s with self := {s.self with file_merger_ := other.self.file_merger_}}

theorem body_merger (b : MergeState) (m : FileMerger) :
    MergeSort.body env {b with self := {b.self with file_merger_ := m}} =
      {MergeSort.body env b with self := {(MergeSort.body env b).self with file_merger_ := m}} := by
  unfold MergeSort.body
  split
  · rfl
  · split <;> rfl

theorem body_file_merger (b : MergeState) : (MergeSort.body env b).self.file_merger_ = b.self.file_merger_ := by
  unfold MergeSort.body
  split
  · rfl
  · split <;> rfl

private theorem step_twins (s other : MergeState) (twins : Twins s other) :
    Twins ((MergeSort.step env s).getD s) ((MergeSort.step env.faultless other).getD other) := by
  obtain ⟨merger,same⟩ := twins
  change Twins _ ((MergeSort.step env other).getD other)
  generalize other.self.file_merger_ = m at merger same
  subst same
  obtain ⟨self,curr_tuple,next_tuple,topN_tuples,finished,taken⟩ := s
  cases finished with
  | true => exact ⟨merger,rfl⟩
  | false =>
    simp only [MergeSort.step,Bool.false_eq_true,if_false]
    obtain ⟨kept,answer,rest⟩ := merger.next env.toPlatform self.arena next_tuple
    rcases first : self.file_merger_.NextResultTuple env.toPlatform self.arena next_tuple with
      ⟨found,after,arena,top⟩
    rcases second : m.NextResultTuple env.toPlatform self.arena next_tuple with ⟨again,later,left,last⟩
    dsimp only at kept answer rest
    rw [first,second] at kept answer rest
    obtain ⟨rfl,rfl⟩ := Prod.mk.inj rest
    dsimp only at kept answer
    subst answer
    cases again with
    | false => exact ⟨kept,rfl⟩
    | true =>
      let b : MergeState := ⟨{self with file_merger_ := after, arena := left},curr_tuple,last,topN_tuples,false,
        taken ++ [(last.str.toString left.memory,last.cnt,last.file_index)]⟩
      change Twins (MergeSort.body env b) (MergeSort.body env {b with self := {b.self with file_merger_ := later}})
      rw [body_merger env b later]
      refine ⟨?_,rfl⟩
      rw [body_file_merger]
      exact kept

def mergedRows (env : Env) (self : TopNFreqUrls) : List Entry :=
  (MergeSort.head env self (MergeSort.rounds (MergeSort.start env self))).taken

private theorem merge_settled (self : TopNFreqUrls) (more : Nat)
    (later : MergeSort.rounds (MergeSort.start env self) ≤ more) :
    MergeSort.head env self more = MergeSort.head env self (MergeSort.rounds (MergeSort.start env self)) := by
  apply loop_settled (MergeSort.step env) _ _ more _ later
  have ended : (MergeSort.head env self (MergeSort.rounds (MergeSort.start env self))).finished = true :=
    merge_ended self
  change MergeSort.step env (MergeSort.head env self _) = none
  simp only [MergeSort.step,ended,if_true]

private theorem fillResults_faultless (mem : Memory) (n : Nat) (results heap : List ResultTuple) :
    fillResults env.faultless mem n results heap = fillResults env mem n results heap := by
  induction n generalizing results heap with
  | zero => rfl
  | succ n ih => exact ih _ _

private theorem finish_twins (s other : MergeState) (twins : Twins s other) :
    (MergeSort.finish env.faultless other).2.2 = (MergeSort.finish env s).2.2 ∧
      (MergeSort.finish env.faultless other).2.1.arena = (MergeSort.finish env s).2.1.arena := by
  obtain ⟨_,same⟩ := twins
  generalize other.self.file_merger_ = m at same
  subst same
  unfold MergeSort.finish
  dsimp only
  cases s.curr_tuple.IsEmpty with
  | true =>
    simp only [if_true,fillResults_faultless]
    split <;> exact ⟨rfl,rfl⟩
  | false =>
    simp only [Bool.false_eq_true,if_false]
    have offered : ({s.self with file_merger_ := m} : TopNFreqUrls).UpdateHeap env.faultless s.curr_tuple
        s.topN_tuples = ({(s.self.UpdateHeap env s.curr_tuple s.topN_tuples).1 with file_merger_ := m},
          (s.self.UpdateHeap env s.curr_tuple s.topN_tuples).2) := rfl
    rw [offered]
    rcases s.self.UpdateHeap env s.curr_tuple s.topN_tuples with ⟨after,kept⟩
    simp only [fillResults_faultless]
    split <;> exact ⟨rfl,rfl⟩

/-- Where the mergers read the same rows the second stage merges the same rows and
returns the same results. -/
theorem MergeSort_twins (self : TopNFreqUrls)
    (twins : Twins (MergeSort.start env self) (MergeSort.start env.faultless self)) :
    mergedRows env.faultless self = mergedRows env self ∧
      (self.MergeSort env.faultless).2.2 = (self.MergeSort env).2.2 ∧
      (self.MergeSort env.faultless).2.1.arena = (self.MergeSort env).2.1.arena := by
  let rounds := MergeSort.rounds (MergeSort.start env self)
  let otherRounds := MergeSort.rounds (MergeSort.start env.faultless self)
  have related := loop_related (MergeSort.step env) (MergeSort.step env.faultless) Twins (step_twins env) _ _ twins
    (max rounds otherRounds)
  change Twins (MergeSort.head env self _) (MergeSort.head env.faultless self _) at related
  rw [merge_settled env self _ (le_max_left rounds otherRounds),
    merge_settled env.faultless self _ (le_max_right rounds otherRounds)] at related
  refine ⟨?_,finish_twins env _ _ related⟩
  rw [mergedRows,mergedRows,related.same]

/-- The merger that has opened its files but read no row. -/
def unread (env : Env) (self : TopNFreqUrls) (base_file_name : Bytes) : FileMerger :=
  {FileMerger.new base_file_name with
    sorted_files_ := (List.range self.file_mgr_.TotalOutputFiles).map
      (FileMerger.openSpill env self.disk base_file_name)
    drained_ := List.replicate self.file_mgr_.TotalOutputFiles false}

theorem unread_stream (self : TopNFreqUrls) (base_file_name : Bytes) (i : Nat)
    (bound : i < self.file_mgr_.TotalOutputFiles) :
    (unread env self base_file_name).sorted_files_.getD i .unopened =
      FileMerger.openSpill env self.disk base_file_name i := by
  simp [unread,List.getD_eq_getElem?_getD,bound]

theorem unread_drained (self : TopNFreqUrls) (base_file_name : Bytes) (i : Nat) :
    (unread env self base_file_name).drained_.getD i true = false ↔ i < self.file_mgr_.TotalOutputFiles := by
  by_cases bound : i < self.file_mgr_.TotalOutputFiles <;> simp [unread,List.getD_eq_getElem?_getD,bound]

theorem Open_unread (self : TopNFreqUrls) (base_file_name : Bytes)
    (merger : self.file_merger_ = .new base_file_name) :
    self.file_merger_.Open env self.disk self.arena self.file_mgr_.TotalOutputFiles =
      (true,(List.range self.file_mgr_.TotalOutputFiles).foldl (FileMerger.fill env.toPlatform)
        (unread env self base_file_name,self.arena)) := by
  rw [merger]
  exact (FileMerger.prepared_new base_file_name _).open_eq self.arena

theorem start_twins (self : TopNFreqUrls) (base_file_name : Bytes) (merger : self.file_merger_ = .new base_file_name)
    (streams : ∀ i < self.file_mgr_.TotalOutputFiles, SameRows (FileMerger.openSpill env self.disk base_file_name i)
      (FileMerger.openSpill env.faultless self.disk base_file_name i)) :
    Twins (MergeSort.start env self) (MergeSort.start env.faultless self) := by
  have twin : FileMerger.Twin (unread env self base_file_name) (unread env.faultless self base_file_name) := by
    refine ⟨rfl,rfl,rfl,rfl,by simp [unread],fun i flag => ?_⟩
    have bound := (unread_drained env self base_file_name i).mp flag
    rw [unread_stream env self base_file_name i bound,unread_stream env.faultless self base_file_name i bound]
    exact streams i bound
  obtain ⟨kept,same⟩ := twin.fill env.toPlatform self.arena (List.range self.file_mgr_.TotalOutputFiles)
  unfold MergeSort.start
  rw [Open_unread env self base_file_name merger,Open_unread env.faultless self base_file_name merger,
    show env.faultless.toPlatform = env.toPlatform from rfl]
  generalize (List.range self.file_mgr_.TotalOutputFiles).foldl (FileMerger.fill env.toPlatform)
    (unread env self base_file_name,self.arena) = filled at kept same ⊢
  generalize (List.range self.file_mgr_.TotalOutputFiles).foldl (FileMerger.fill env.toPlatform)
    (unread env.faultless self base_file_name,self.arena) = again at kept same ⊢
  obtain ⟨after,arena⟩ := filled
  obtain ⟨other,_⟩ := again
  dsimp only at kept same
  subst same
  exact ⟨kept,rfl⟩

end TopNFreqUrls
end TopNFreq
