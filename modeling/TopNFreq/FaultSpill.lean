import TopNFreq.SpillResults

/-! The first stage under faults. Whatever goes wrong with a spill file or a row
is reported; a stage that answers true has done what it does without faults. -/
namespace TopNFreq
open Library.Text Library.InputStream Library.Loop IStream

namespace TopNFreqUrls
variable (env : Env)

/-- Either `run` has failed or `again`, which is free of faults, does the same up
to the input stream. -/
def Repeated {α : Type} (run again : Bool × α) (turn : α → α) : Prop :=
  run.1 = false ∨ run.1 = true ∧ again = (true,turn run.2)

theorem Repeated.cases {α : Type} {run again : Bool × α} {turn : α → α} (repeated : Repeated run again turn) :
    (∃ after, run = (false,after)) ∨ ∃ after, run = (true,after) ∧ again = (true,turn after) := by
  obtain ⟨answer,after⟩ := run
  rcases repeated with rfl | ⟨rfl,same⟩
  · exact .inl ⟨after,rfl⟩
  · exact .inr ⟨after,rfl,same⟩

theorem write_repeated (self : TopNFreqUrls) (in_ : IStream) (res : ResultTuple) :
    Repeated (self.write env res) ((self.withInput in_).write env.faultless res) (withInput · in_) := by
  unfold Repeated write FileManager.WriteResultTuple
  cases fault : env.faults.writeRow self.file_mgr_.rows with
  | true => simp [OStream.put]
  | false =>
    simp only [withInput,Env.faultless,Faults.none,Bool.false_eq_true,if_false]
    generalize (self.file_mgr_.out_.put self.disk (res.str.toString self.arena.memory)).2.put
      (self.file_mgr_.out_.put self.disk (res.str.toString self.arena.memory)).1
      (tab :: decimalInt res.cnt.toInt ++ [newline]) = written
    cases written.2.failbit with
    | true => exact .inl rfl
    | false => exact .inr ⟨rfl,rfl⟩

theorem countRuns_repeated (self : TopNFreqUrls) (in_ : IStream) (curr_tuple : ResultTuple)
    (urls : List StringVal) :
    Repeated (self.countRuns env curr_tuple urls) ((self.withInput in_).countRuns env.faultless curr_tuple urls)
      (fun after => (after.1.withInput in_,after.2)) := by
  induction urls generalizing self curr_tuple with
  | nil => exact .inr ⟨rfl,rfl⟩
  | cons url rest ih =>
    have same : (self.withInput in_).arena = self.arena := rfl
    simp only [countRuns,same]
    split
    · exact ih self _
    · split
      · exact ih self _
      · rcases (write_repeated env self in_ curr_tuple).cases with ⟨after,run⟩ | ⟨after,run,again⟩
        · rw [run]
          exact .inl rfl
        · rw [run,again]
          exact ih after _

theorem writeLast_repeated (self : TopNFreqUrls) (in_ : IStream) (curr_tuple : ResultTuple) :
    Repeated (self.writeLast env curr_tuple) ((self.withInput in_).writeLast env.faultless curr_tuple)
      (withInput · in_) := by
  unfold writeLast
  split
  · exact .inr ⟨rfl,rfl⟩
  · exact write_repeated env self in_ curr_tuple

theorem NewOutputFile_repeated (self : TopNFreqUrls) :
    Repeated (self.file_mgr_.NewOutputFile env self.disk) (self.file_mgr_.NewOutputFile env.faultless self.disk) id := by
  unfold FileManager.NewOutputFile OStream.openFile
  cases fault : env.faults.createSpill self.file_mgr_.output_files_ with
  | true => exact .inl rfl
  | false => exact .inr ⟨rfl,rfl⟩

def spillSorted (env : Env) (self : TopNFreqUrls) (curr_tuple : ResultTuple) (urls : List StringVal) :
    Bool × TopNFreqUrls × List StringVal :=
  match self.countRuns env curr_tuple urls with
  | (false,self,_) => (false,self,urls)
  | (true,self,curr_tuple) =>
    match self.writeLast env curr_tuple with
    | (false,self) => (false,self,urls)
    | (true,self) => (true,self.freeAll urls,[])

theorem AggregateAndSpillToDisk_repeated (self : TopNFreqUrls) (in_ : IStream) (urls : List StringVal) :
    Repeated (self.AggregateAndSpillToDisk env urls)
      ((self.withInput in_).AggregateAndSpillToDisk env.faultless urls)
      (fun after => (after.1.withInput in_,after.2)) := by
  rcases (NewOutputFile_repeated env self).cases with ⟨⟨disk,mgr⟩,run⟩ | ⟨⟨disk,mgr⟩,run,again⟩
  · exact .inl (by simp only [AggregateAndSpillToDisk,run])
  let batch := env.sorting.sort (StringVal.less self.arena.memory) urls
  let opened : TopNFreqUrls := {self with disk, file_mgr_ := mgr}
  have first : self.AggregateAndSpillToDisk env urls =
      spillSorted env opened (env.uninit self.arena.requests).SetEmpty batch := by
    simp only [AggregateAndSpillToDisk,run]
    rfl
  have second : (self.withInput in_).AggregateAndSpillToDisk env.faultless urls =
      spillSorted env.faultless (opened.withInput in_) (env.uninit self.arena.requests).SetEmpty batch := by
    have created : (self.withInput in_).file_mgr_.NewOutputFile env.faultless (self.withInput in_).disk =
        (true,disk,{mgr with in_}) := by
      have frame : (self.withInput in_).file_mgr_.NewOutputFile env.faultless (self.withInput in_).disk =
          ((self.file_mgr_.NewOutputFile env.faultless self.disk).1,
            (self.file_mgr_.NewOutputFile env.faultless self.disk).2.1,
            {(self.file_mgr_.NewOutputFile env.faultless self.disk).2.2 with in_}) := rfl
      rw [frame,again]
      rfl
    simp only [AggregateAndSpillToDisk,created]
    rfl
  rw [first,second]
  unfold spillSorted
  rcases (countRuns_repeated env opened in_ (env.uninit self.arena.requests).SetEmpty batch).cases with
    ⟨_,run⟩ | ⟨⟨now,curr_tuple⟩,run,again⟩
  · rw [run]
    exact .inl rfl
  rw [run,again]
  dsimp only
  rcases (writeLast_repeated env now in_ curr_tuple).cases with ⟨_,run⟩ | ⟨after,run,again⟩
  · rw [run]
    exact .inl rfl
  · rw [run,again]
    exact .inr ⟨rfl,rfl⟩

theorem reserve_repeated (self : TopNFreqUrls) (in_ : IStream) (urls : List StringVal) (len : Nat) :
    Repeated (self.reserve env urls len) ((self.withInput in_).reserve env.faultless urls len)
      (fun after => (after.1,after.2.1.withInput in_,after.2.2)) := by
  have asked : (self.withInput in_).arena.TryAllocate env.faultless.toPlatform (UInt64.ofNat len) =
      self.arena.TryAllocate env.toPlatform (UInt64.ofNat len) := rfl
  unfold reserve
  rw [asked]
  rcases self.arena.TryAllocate env.toPlatform (UInt64.ofNat len) with ⟨ptr,arena⟩
  dsimp only
  split
  · have spill := AggregateAndSpillToDisk_repeated env {self with arena} in_ urls
    rcases spill.cases with ⟨_,run⟩ | ⟨⟨after,left⟩,run,again⟩
    · rw [run]
      exact .inl rfl
    · have again : AggregateAndSpillToDisk env.faultless {self.withInput in_ with arena} urls =
          (true,after.withInput in_,left) := again
      rw [run,again]
      exact .inr ⟨rfl,rfl⟩
  · exact .inr ⟨rfl,rfl⟩

/-- Two states of the loop that differ in the input stream only, where the same
URLs are to come. -/
structure Alike (s other : PartialState) : Prop where
  self : ∃ in_, other.self = s.self.withInput in_
  urls : other.urls = s.urls
  status : other.status = s.status
  pending : s.status = .running → urlsOf other.self.file_mgr_.in_ = urlsOf s.self.file_mgr_.in_

theorem ReadLine_alike (in_ other : IStream) (same : urlsOf other = urlsOf in_) :
    (FileManager.ReadLine other MAX_URL_LEN newline).2 = (FileManager.ReadLine in_ MAX_URL_LEN newline).2 ∧
      ((FileManager.ReadLine in_ MAX_URL_LEN newline).2 ≠ none →
        urlsOf (FileManager.ReadLine other MAX_URL_LEN newline).1 =
          urlsOf (FileManager.ReadLine in_ MAX_URL_LEN newline).1) := by
  rcases first : FileManager.ReadLine in_ MAX_URL_LEN newline with ⟨rest,_ | url⟩ <;>
    rcases second : FileManager.ReadLine other MAX_URL_LEN newline with ⟨left,_ | found⟩
  · exact ⟨rfl,fun some => absurd rfl some⟩
  · rw [urlsOf_none _ _ first,urlsOf_some _ _ _ second] at same
    cases same
  · rw [urlsOf_some _ _ _ first,urlsOf_none _ _ second] at same
    cases same
  · rw [urlsOf_some _ _ _ first,urlsOf_some _ _ _ second] at same
    obtain ⟨rfl,later⟩ := List.cons.inj same
    exact ⟨rfl,fun _ => later⟩

private theorem step_alike (s other : PartialState) (alike : s.status = .failed ∨ Alike s other) :
    ((PartialSort.step env s).getD s).status = .failed ∨
      Alike ((PartialSort.step env s).getD s) ((PartialSort.step env.faultless other).getD other) := by
  rcases alike with failed | alike
  · left
    simp only [PartialSort.step,failed,Option.getD_none]
  obtain ⟨self,batchUrls,going⟩ := s
  obtain ⟨same,urls,status⟩ := other
  obtain ⟨⟨stream,selves⟩,batch,statuses,pending⟩ := alike
  dsimp only at selves batch statuses pending
  subst selves batch statuses
  cases status with
  | finished => exact .inr ⟨⟨stream,rfl⟩,rfl,rfl,fun running => by cases running⟩
  | failed => exact .inl rfl
  | running =>
    obtain ⟨found,later⟩ := ReadLine_alike self.file_mgr_.in_ stream (pending rfl)
    have input : (self.withInput stream).file_mgr_.in_ = stream := rfl
    simp only [PartialSort.step,input]
    rcases second : FileManager.ReadLine stream MAX_URL_LEN newline with ⟨left,found'⟩
    rcases first : FileManager.ReadLine self.file_mgr_.in_ MAX_URL_LEN newline with ⟨rest,_ | url⟩
    · rw [first,second] at found
      dsimp only at found
      subst found
      exact .inr ⟨⟨left,rfl⟩,rfl,rfl,fun running => by cases running⟩
    · rw [first,second] at found later
      dsimp only at found later
      subst found
      rcases (reserve_repeated env (self.withInput rest) left urls url.length).cases with
        ⟨⟨ptr,after,kept⟩,run⟩ | ⟨⟨ptr,after,kept⟩,run,again⟩
      · simp only [run]
        exact .inl rfl
      · have frame : (self.withInput stream).withInput left = (self.withInput rest).withInput left := rfl
        simp only [run,frame,again]
        refine .inr ⟨⟨left,rfl⟩,rfl,rfl,fun _ => ?_⟩
        have kept := reserve_input env (self.withInput rest) urls url.length
        rw [run] at kept
        change urlsOf left = urlsOf after.file_mgr_.in_
        rw [kept]
        exact later (by simp)

private theorem finish_repeated (s other : PartialState) (alike : Alike s other) :
    Repeated (PartialSort.finish env s) (PartialSort.finish env.faultless other) id := by
  obtain ⟨self,batch,going⟩ := s
  obtain ⟨same,urls,status⟩ := other
  obtain ⟨⟨stream,selves⟩,batches,statuses,_⟩ := alike
  dsimp only at selves batches statuses
  subst selves batches statuses
  unfold PartialSort.finish
  dsimp only
  split
  · exact .inl rfl
  · cases urls.isEmpty with
    | true => exact .inr ⟨rfl,rfl⟩
    | false =>
      simp only [Bool.false_eq_true,if_false]
      rcases (AggregateAndSpillToDisk_repeated env self stream urls).cases with ⟨_,run⟩ | ⟨after,run,again⟩
      · rw [run]
        exact .inl rfl
      · rw [run,again]
        exact .inr ⟨rfl,rfl⟩

variable (disk : Disk) (file content : Bytes) (num_results : Int32) (mem_limit : UInt64)

theorem opened_of_passed (spilled : TopNFreqUrls)
    (passed : (TopNFreqUrls.new file num_results mem_limit disk).PartialSort env = (true,spilled)) :
    env.faults.openInput = false := by
  cases fault : env.faults.openInput with
  | false => rfl
  | true => simp [PartialSort,FileManager.Open,fault] at passed

/-- A first stage that answers true, and has not lost a piece of a line, has done
what it does without faults. -/
theorem PartialSort_repeated (present : disk file = some content)
    (whole : inputUrls env content = (linesOf content).flatMap chop) (spilled : TopNFreqUrls)
    (passed : (TopNFreqUrls.new file num_results mem_limit disk).PartialSort env = (true,spilled)) :
    (TopNFreqUrls.new file num_results mem_limit disk).PartialSort env.faultless = (true,spilled) := by
  have opens := opened_of_passed env disk file num_results mem_limit spilled passed
  let start := started env disk file content num_results mem_limit
  let other := started env.faultless disk file content num_results mem_limit
  let rounds := start.file_mgr_.in_.after.length + 1
  let otherRounds := other.file_mgr_.in_.after.length + 1
  have first : _ = PartialSort.finish env (PartialSort.head env start rounds) :=
    PartialSort_started env disk file content num_results mem_limit opens present
  have second : _ = PartialSort.finish env.faultless (PartialSort.head env.faultless other otherRounds) :=
    PartialSort_started env.faultless disk file content num_results mem_limit rfl present
  -- Both loops have ended after the larger number of rounds.
  have settled : PartialSort.head env start (max rounds otherRounds) = PartialSort.head env start rounds :=
    loop_settled (PartialSort.step env) _ rounds _ (head_stopped env start) (le_max_left _ _)
  have otherSettled : PartialSort.head env.faultless other (max rounds otherRounds) =
      PartialSort.head env.faultless other otherRounds :=
    loop_settled (PartialSort.step env.faultless) _ otherRounds _ (head_stopped env.faultless other) (le_max_right _ _)
  have pending : urlsOf other.file_mgr_.in_ = urlsOf start.file_mgr_.in_ :=
    (urlsOf_holds _ content (holds_opened content)).trans whole.symm
  have related := loop_related (PartialSort.step env) (PartialSort.step env.faultless)
    (fun s other => s.status = .failed ∨ Alike s other) (step_alike env) ⟨start,[],.running⟩ ⟨other,[],.running⟩
    (.inr ⟨⟨_,rfl⟩,rfl,rfl,fun _ => pending⟩) (max rounds otherRounds)
  change (PartialSort.head env start _).status = .failed ∨
    Alike (PartialSort.head env start _) (PartialSort.head env.faultless other _) at related
  rw [settled,otherSettled] at related
  rw [first] at passed
  rw [second]
  rcases related with failed | alike
  · simp [PartialSort.finish,failed] at passed
  · rcases (finish_repeated env _ _ alike).cases with ⟨_,refused⟩ | ⟨after,done,same⟩
    · rw [refused] at passed
      cases passed
    · rw [done] at passed
      rw [same,← passed]
      rfl

end TopNFreqUrls
end TopNFreq
