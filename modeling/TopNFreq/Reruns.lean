import TopNFreq.RunMemory

/-! Runs one after the other on the same disk. A run reads its input and the spill
files it has created itself, so what earlier runs have left there does not matter. -/
namespace TopNFreq
open Library.Text Library.InputStream Library.Loop FileManager

namespace TopNFreqUrls

def onDisk (self : TopNFreqUrls) (disk : Disk) : TopNFreqUrls := {self with disk}

/-- The spill files created so far are the same on the other disk, the open one is among
them, and they are the ones that the merger opens. -/
structure SameSpills (now : TopNFreqUrls) (disk : Disk) : Prop where
  spills : ∀ i < now.file_mgr_.output_files_, disk (OutputFileName now.file_mgr_.file_name_ i) =
    now.disk (OutputFileName now.file_mgr_.file_name_ i)
  target : ∀ name, now.file_mgr_.out_.target = some name →
    ∃ i < now.file_mgr_.output_files_, name = OutputFileName now.file_mgr_.file_name_ i
  base : now.file_merger_.base_file_name_ = now.file_mgr_.file_name_

/-- Both calls fail, or both succeed with results that differ in the disks only. -/
def Undisturbed {α : Type} (run again : Bool × α) (pack : TopNFreqUrls → α) : Prop :=
  (∃ failed other, run = (false,failed) ∧ again = (false,other)) ∨
    ∃ after disk, run = (true,pack after) ∧ again = (true,pack (after.onDisk disk)) ∧ SameSpills after disk

theorem put_other (out_ : OStream) (disk other : Disk) (text : Bytes) :
    (out_.put other text).2 = (out_.put disk text).2 ∧
      ∀ name, other name = disk name → (∀ open_, out_.target = some open_ → other open_ = disk open_) →
        (out_.put other text).1 name = (out_.put disk text).1 name := by
  unfold OStream.put
  split
  · exact ⟨rfl,fun _ same _ => same⟩
  · split
    · exact ⟨rfl,fun _ same _ => same⟩
    · rename_i open_ opened
      refine ⟨rfl,fun name same written => ?_⟩
      dsimp only
      rw [written open_ opened]
      by_cases here : name = open_
      · rw [here,Function.update_self,Function.update_self]
      · rw [Function.update_of_ne here,Function.update_of_ne here,same]

/-- The two insertions of a row. -/
def putRow (out_ : OStream) (disk : Disk) (mem : Memory) (res : ResultTuple) : Disk × OStream :=
  let (disk,out_) := out_.put disk (res.str.toString mem)
  out_.put disk (tab :: decimalInt res.cnt.toInt ++ [newline])

theorem putRow_other (out_ : OStream) (disk other : Disk) (mem : Memory) (res : ResultTuple) :
    (putRow out_ other mem res).2 = (putRow out_ disk mem res).2 ∧
      ∀ name, other name = disk name → (∀ open_, out_.target = some open_ → other open_ = disk open_) →
        (putRow out_ other mem res).1 name = (putRow out_ disk mem res).1 name := by
  obtain ⟨outs,first⟩ := put_other out_ disk other (res.str.toString mem)
  have target := (put_frame out_ disk (res.str.toString mem)).1
  unfold putRow
  dsimp only
  rw [outs]
  obtain ⟨later,second⟩ := put_other (out_.put disk (res.str.toString mem)).2
    (out_.put disk (res.str.toString mem)).1 (out_.put other (res.str.toString mem)).1
    (tab :: decimalInt res.cnt.toInt ++ [newline])
  refine ⟨later,fun name same opened => second name (first name same opened) fun open_ again => ?_⟩
  rw [target] at again
  exact first open_ (opened open_ again) opened

variable {self : TopNFreqUrls} {disk : Disk}

theorem SameSpills.opened (same : SameSpills self disk) (name : Bytes)
    (target : self.file_mgr_.out_.target = some name) : disk name = self.disk name := by
  obtain ⟨i,bound,rfl⟩ := same.target name target
  exact same.spills i bound

theorem SameSpills.write (same : SameSpills self disk) (env : Env) (res : ResultTuple) :
    Undisturbed (self.write env res) ((self.onDisk disk).write env res) id := by
  have frame := write_frame env self res
  obtain ⟨out_,chosen⟩ : ∃ out_, (if env.faults.writeRow self.file_mgr_.rows then
    {self.file_mgr_.out_ with failbit := true} else self.file_mgr_.out_) = out_ := ⟨_,rfl⟩
  have target : out_.target = self.file_mgr_.out_.target := by
    rw [← chosen]
    split <;> rfl
  obtain ⟨outs,files⟩ := putRow_other out_ self.disk disk self.arena.memory res
  have shape (d : Disk) : (self.onDisk d).write env res = (!(putRow out_ d self.arena.memory res).2.failbit,
      {self with
        disk := (putRow out_ d self.arena.memory res).1
        file_mgr_ := {self.file_mgr_ with
          out_ := (putRow out_ d self.arena.memory res).2
          rows := self.file_mgr_.rows + 1
          handed := appendLast self.file_mgr_.handed (res.str.toString self.arena.memory,res.cnt)}}) := by
    rw [← chosen]
    rfl
  have own : self.write env res = (self.onDisk self.disk).write env res := rfl
  have written : (self.write env res).2.disk = (putRow out_ self.disk self.arena.memory res).1 := by
    rw [own,shape]
  have again : (self.onDisk disk).write env res = ((self.write env res).1,
      (self.write env res).2.onDisk (putRow out_ disk self.arena.memory res).1) := by
    rw [own,shape,shape,outs]
    rfl
  have kept : SameSpills (self.write env res).2 (putRow out_ disk self.arena.memory res).1 := by
    refine ⟨fun i bound => ?_,fun name opened => ?_,same.base⟩
    · rw [frame.output_files_] at bound
      rw [frame.file_name_,written]
      exact files _ (same.spills i bound) fun open_ opened => same.opened open_ (target ▸ opened)
    · rw [frame.target] at opened
      rw [frame.output_files_,frame.file_name_]
      exact same.target name opened
  rw [again]
  rcases run : self.write env res with ⟨_ | _,after⟩
  · exact .inl ⟨_,_,rfl,rfl⟩
  · rw [run] at kept
    exact .inr ⟨after,_,rfl,rfl,kept⟩

theorem SameSpills.countRuns (same : SameSpills self disk) (env : Env) (curr_tuple : ResultTuple) (urls : List StringVal) :
    (∃ failed other, self.countRuns env curr_tuple urls = (false,failed) ∧
        (self.onDisk disk).countRuns env curr_tuple urls = (false,other)) ∨
      ∃ after tuple later, self.countRuns env curr_tuple urls = (true,after,tuple) ∧
        (self.onDisk disk).countRuns env curr_tuple urls = (true,after.onDisk later,tuple) ∧
        SameSpills after later := by
  induction urls generalizing self disk curr_tuple with
  | nil => exact .inr ⟨self,curr_tuple,disk,rfl,rfl,same⟩
  | cons url rest ih =>
    have mem : (self.onDisk disk).arena = self.arena := rfl
    simp only [TopNFreqUrls.countRuns,mem]
    split
    · exact ih same _
    · split
      · exact ih same _
      · rcases same.write env curr_tuple with ⟨_,_,failed,again⟩ | ⟨after,later,wrote,again,kept⟩
        · rw [failed,again]
          exact .inl ⟨_,_,rfl,rfl⟩
        · rw [wrote,again]
          exact ih kept _

theorem SameSpills.writeLast (same : SameSpills self disk) (env : Env) (curr_tuple : ResultTuple) :
    Undisturbed (self.writeLast env curr_tuple) ((self.onDisk disk).writeLast env curr_tuple) id := by
  unfold TopNFreqUrls.writeLast
  split
  · exact .inr ⟨self,disk,rfl,rfl,same⟩
  · exact same.write env curr_tuple

/-- The next spill file is empty on both disks, whatever was there. -/
theorem SameSpills.create (same : SameSpills self disk) (env : Env) :
    (∃ failed other, self.file_mgr_.NewOutputFile env self.disk = (false,failed) ∧
        self.file_mgr_.NewOutputFile env disk = (false,other)) ∨
      ∃ file_mgr_ fresh later, self.file_mgr_.NewOutputFile env self.disk = (true,fresh,file_mgr_) ∧
        self.file_mgr_.NewOutputFile env disk = (true,later,file_mgr_) ∧
        SameSpills {self with disk := fresh, file_mgr_} later := by
  unfold NewOutputFile OStream.openFile
  cases env.faults.createSpill self.file_mgr_.output_files_ with
  | true => exact .inl ⟨_,_,rfl,rfl⟩
  | false =>
    refine .inr ⟨_,_,_,rfl,rfl,fun i bound => ?_,fun name opened => ?_,same.base⟩
    · dsimp only at bound ⊢
      by_cases new : i = self.file_mgr_.output_files_
      · rw [new,Function.update_self,Function.update_self]
      · have other := OutputFileName_ne self.file_mgr_.file_name_ i self.file_mgr_.output_files_ new
        rw [Function.update_of_ne other,Function.update_of_ne other]
        exact same.spills i (by omega)
    · exact ⟨self.file_mgr_.output_files_,Nat.lt_succ_self _,(Option.some.inj opened).symm⟩

theorem SameSpills.spill (same : SameSpills self disk) (env : Env) (urls : List StringVal) :
    (∃ failed other, self.AggregateAndSpillToDisk env urls = (false,failed) ∧
        (self.onDisk disk).AggregateAndSpillToDisk env urls = (false,other)) ∨
      ∃ after later, self.AggregateAndSpillToDisk env urls = (true,after,[]) ∧
        (self.onDisk disk).AggregateAndSpillToDisk env urls = (true,after.onDisk later,[]) ∧
        SameSpills after later := by
  have other : (self.onDisk disk).file_mgr_.NewOutputFile env (self.onDisk disk).disk =
      self.file_mgr_.NewOutputFile env disk := rfl
  unfold AggregateAndSpillToDisk
  rw [other]
  rcases same.create env with ⟨_,_,failed,again⟩ | ⟨file_mgr_,fresh,later,created,again,kept⟩
  · rw [failed,again]
    exact .inl ⟨_,_,rfl,rfl⟩
  rw [created,again]
  have counted := kept.countRuns env (env.uninit self.arena.requests).SetEmpty
    (env.sorting.sort (StringVal.less self.arena.memory) urls)
  dsimp only [onDisk] at counted ⊢
  rcases counted with ⟨_,_,failed,again⟩ | ⟨now,tuple,onto,run,again,kept⟩
  · rw [failed,again]
    exact .inl ⟨_,_,rfl,rfl⟩
  rw [run,again]
  have last := kept.writeLast env tuple
  dsimp only [onDisk] at last ⊢
  rcases last with ⟨_,_,failed,again⟩ | ⟨after,left,wrote,again,kept⟩
  · rw [failed,again]
    exact .inl ⟨_,_,rfl,rfl⟩
  · rw [wrote,again]
    exact .inr ⟨_,left,rfl,rfl,kept.spills,kept.target,kept.base⟩

theorem SameSpills.reserve (same : SameSpills self disk) (env : Env) (urls : List StringVal) (len : Nat) :
    (∃ failed other, self.reserve env urls len = (false,failed) ∧
        (self.onDisk disk).reserve env urls len = (false,other)) ∨
      ∃ ptr after left later, self.reserve env urls len = (true,ptr,after,left) ∧
        (self.onDisk disk).reserve env urls len = (true,ptr,after.onDisk later,left) ∧ SameSpills after later := by
  have asked : (self.onDisk disk).arena = self.arena := rfl
  unfold TopNFreqUrls.reserve
  rw [asked]
  rcases self.arena.TryAllocate env.toPlatform (UInt64.ofNat len) with ⟨ptr,arena⟩
  have refused : SameSpills {self with arena} disk := ⟨same.spills,same.target,same.base⟩
  dsimp only [onDisk]
  split
  · have spilled := refused.spill env urls
    dsimp only [onDisk] at spilled
    rcases spilled with ⟨_,_,failed,again⟩ | ⟨after,later,run,again,kept⟩
    · rw [failed,again]
      exact .inl ⟨_,_,rfl,rfl⟩
    · rw [run,again]
      exact .inr ⟨_,_,[],later,rfl,rfl,kept.spills,kept.target,kept.base⟩
  · exact .inr ⟨ptr,_,urls,disk,rfl,rfl,refused.spills,refused.target,refused.base⟩

/-- Both loops have failed, or they are in states that differ in the disks only. -/
def Parallel (s other : PartialState) : Prop :=
  s.status = .failed ∧ other.status = .failed ∨
    ∃ disk, other = {s with self := s.self.onDisk disk} ∧ SameSpills s.self disk

theorem step_parallel (env : Env) (s other : PartialState) (parallel : Parallel s other) :
    Parallel ((PartialSort.step env s).getD s) ((PartialSort.step env other).getD other) := by
  rcases parallel with ⟨failed,again⟩ | ⟨disk,rfl,same⟩
  · left
    simp only [PartialSort.step,failed,again,Option.getD_none,and_self]
  obtain ⟨self,urls,status⟩ := s
  cases status with
  | finished => exact .inr ⟨disk,rfl,same⟩
  | failed => exact .inl ⟨rfl,rfl⟩
  | running =>
    have input : (self.onDisk disk).file_mgr_.in_ = self.file_mgr_.in_ := rfl
    simp only [PartialSort.step,input]
    rcases FileManager.ReadLine self.file_mgr_.in_ MAX_URL_LEN newline with ⟨in_,_ | url⟩
    · exact .inr ⟨disk,rfl,same.spills,same.target,same.base⟩
    · have reading : SameSpills (self.withInput in_) disk := ⟨same.spills,same.target,same.base⟩
      have moved : (self.onDisk disk).withInput in_ = (self.withInput in_).onDisk disk := rfl
      dsimp only
      rw [moved]
      rcases reading.reserve env urls url.length with ⟨_,_,failed,again⟩ | ⟨ptr,after,left,later,run,again,kept⟩
      · rw [failed,again]
        exact .inl ⟨rfl,rfl⟩
      · rw [run,again]
        exact .inr ⟨later,rfl,kept.spills,kept.target,kept.base⟩

theorem finish_parallel (env : Env) (s other : PartialState) (parallel : Parallel s other) :
    Undisturbed (PartialSort.finish env s) (PartialSort.finish env other) id := by
  rcases parallel with ⟨failed,again⟩ | ⟨disk,rfl,same⟩
  · refine .inl ⟨s.self,other.self,?_,?_⟩
    · simp only [PartialSort.finish,failed,if_true]
    · simp only [PartialSort.finish,again,if_true]
  unfold PartialSort.finish
  dsimp only
  split
  · exact .inl ⟨_,_,rfl,rfl⟩
  have closed (now : TopNFreqUrls) (later : Disk) (kept : SameSpills now later) :
      SameSpills {now with file_mgr_ := now.file_mgr_.Close.2} later := by
    refine ⟨kept.spills,fun name opened => ?_,kept.base⟩
    simp only [FileManager.Close,OStream.close] at opened
    split at opened
    · exact kept.target name opened
    · cases opened
  cases s.urls.isEmpty with
  | true => exact .inr ⟨_,disk,rfl,rfl,closed s.self disk same⟩
  | false =>
    simp only [Bool.false_eq_true,if_false]
    rcases same.spill env s.urls with ⟨_,_,failed,again⟩ | ⟨after,later,run,again,kept⟩
    · rw [failed,again]
      exact .inl ⟨_,_,rfl,rfl⟩
    · rw [run,again]
      exact .inr ⟨_,later,rfl,rfl,closed after later kept⟩

theorem PartialSort_undisturbed (env : Env) (file : Bytes) (num_results : Int32) (mem_limit : UInt64)
    (disk other : Disk) (input : other file = disk file) :
    Undisturbed ((TopNFreqUrls.new file num_results mem_limit disk).PartialSort env)
      ((TopNFreqUrls.new file num_results mem_limit other).PartialSort env) id := by
  have opened : (FileManager.new file).Open env other = (FileManager.new file).Open env disk := by
    unfold FileManager.Open
    rw [show (FileManager.new file).file_name_ = file from rfl,input]
  unfold PartialSort TopNFreqUrls.new
  dsimp only
  rw [opened]
  have name : ((FileManager.new file).Open env disk).2.output_files_ = 0 ∧
      ((FileManager.new file).Open env disk).2.out_.target = none ∧
      ((FileManager.new file).Open env disk).2.file_name_ = file := by
    unfold FileManager.Open
    split <;> exact ⟨rfl,rfl,rfl⟩
  rcases started : (FileManager.new file).Open env disk with ⟨_ | _,file_mgr_⟩
  · exact .inl ⟨_,_,rfl,rfl⟩
  · rw [started] at name
    obtain ⟨none,closed,base⟩ := name
    apply finish_parallel
    apply loop_related (PartialSort.step env) (PartialSort.step env) Parallel (step_parallel env)
    refine .inr ⟨other,rfl,fun i bound => ?_,fun name target => ?_,base.symm⟩
    · dsimp only at none bound
      omega
    · dsimp only at closed target
      rw [closed] at target
      cases target

theorem openSpill_same (env : Env) (disk other : Disk) (base_file_name : Bytes) (i : Nat)
    (same : other (OutputFileName base_file_name i) = disk (OutputFileName base_file_name i)) :
    FileMerger.openSpill env other base_file_name i = FileMerger.openSpill env disk base_file_name i := by
  rw [FileMerger.openSpill,same]
  rfl

theorem Open_same (env : Env) (disk other : Disk) (m : FileMerger) (pool : Arena) (num_files : Nat)
    (same : ∀ i < num_files, other (OutputFileName m.base_file_name_ i) = disk (OutputFileName m.base_file_name_ i)) :
    m.Open env other pool num_files = m.Open env disk pool num_files := by
  unfold FileMerger.Open
  have opened (sized : FileMerger) (name : sized.base_file_name_ = m.base_file_name_) :
      sized.OpenInternal env other num_files = sized.OpenInternal env disk num_files := by
    rw [FileMerger.OpenInternal_files,FileMerger.OpenInternal_files]
    have streams : (List.range num_files).map (FileMerger.openSpill env other sized.base_file_name_) =
        (List.range num_files).map (FileMerger.openSpill env disk sized.base_file_name_) := by
      apply List.map_congr_left
      intro i member
      apply openSpill_same
      rw [name]
      exact same i (List.mem_range.mp member)
    rw [streams]
  simp only [opened {m with drained_ := resize m.drained_ num_files false} rfl]

def MergeState.onDisk (s : MergeState) (disk : Disk) : MergeState := {s with self := s.self.onDisk disk}

theorem merge_step_onDisk (env : Env) (s : MergeState) (disk : Disk) :
    (MergeSort.step env (s.onDisk disk)).getD (s.onDisk disk) = ((MergeSort.step env s).getD s).onDisk disk := by
  have body (b : MergeState) : MergeSort.body env (b.onDisk disk) = (MergeSort.body env b).onDisk disk := by
    cases empty : b.curr_tuple.IsEmpty with
    | true => simp only [MergeSort.body,MergeState.onDisk,empty,if_true]
    | false =>
      cases same : b.curr_tuple.StrEquals b.self.arena.memory b.next_tuple with
      | true => simp only [MergeSort.body,MergeState.onDisk,onDisk,empty,same,Bool.false_eq_true,if_false,if_true]
      | false =>
        simp only [MergeSort.body,MergeState.onDisk,onDisk,empty,same,Bool.false_eq_true,if_false]
        rfl
  obtain ⟨self,curr_tuple,next_tuple,topN_tuples,finished,taken⟩ := s
  cases finished with
  | true => rfl
  | false =>
    simp only [MergeSort.step,MergeState.onDisk,onDisk,Bool.false_eq_true,if_false]
    rcases self.file_merger_.NextResultTuple env.toPlatform self.arena next_tuple with ⟨_ | _,m,arena,top⟩
    · rfl
    · exact body ⟨{self with file_merger_ := m, arena},curr_tuple,top,topN_tuples,false,
        taken ++ [(top.str.toString arena.memory,top.cnt,top.file_index)]⟩

theorem MergeSort_undisturbed (env : Env) (same : SameSpills self disk) :
    ((self.onDisk disk).MergeSort env).2.2 = (self.MergeSort env).2.2 ∧
      ((self.onDisk disk).MergeSort env).2.1.arena = (self.MergeSort env).2.1.arena := by
  have start : MergeSort.start env (self.onDisk disk) = (MergeSort.start env self).onDisk disk := by
    have opened : self.file_merger_.Open env disk self.arena self.file_mgr_.TotalOutputFiles =
        self.file_merger_.Open env self.disk self.arena self.file_mgr_.TotalOutputFiles :=
      Open_same env self.disk disk _ _ _ fun i bound => by
        rw [same.base]
        exact same.spills i bound
    unfold MergeSort.start onDisk
    dsimp only
    rw [opened]
    rfl
  have rounds : MergeSort.rounds ((MergeSort.start env self).onDisk disk) =
      MergeSort.rounds (MergeSort.start env self) := rfl
  have head : MergeSort.head env (self.onDisk disk) (MergeSort.rounds (MergeSort.start env (self.onDisk disk))) =
      (MergeSort.head env self (MergeSort.rounds (MergeSort.start env self))).onDisk disk := by
    rw [start,rounds]
    unfold MergeSort.head
    rw [start]
    exact loop_related (MergeSort.step env) (MergeSort.step env) (fun s other => other = s.onDisk disk)
      (fun s _ apart => apart ▸ merge_step_onDisk env s disk) _ _ rfl _
  unfold MergeSort
  rw [head]
  generalize MergeSort.head env self (MergeSort.rounds (MergeSort.start env self)) = s
  unfold MergeSort.finish MergeState.onDisk
  dsimp only
  cases s.curr_tuple.IsEmpty with
  | true =>
    simp only [if_true]
    split <;> exact ⟨rfl,rfl⟩
  | false =>
    simp only [Bool.false_eq_true,if_false]
    have offered : (s.self.onDisk disk).UpdateHeap env s.curr_tuple s.topN_tuples =
        ((s.self.UpdateHeap env s.curr_tuple s.topN_tuples).1.onDisk disk,
          (s.self.UpdateHeap env s.curr_tuple s.topN_tuples).2) := rfl
    rw [offered]
    dsimp only
    split <;> exact ⟨rfl,rfl⟩

/-- What a run prints depends on no other file than its input. -/
theorem Run_undisturbed (env : Env) (file : Bytes) (num_results : Int32) (mem_limit : UInt64) (disk other : Disk)
    (input : other file = disk file) :
    ((TopNFreqUrls.new file num_results mem_limit other).Run env).1 =
      ((TopNFreqUrls.new file num_results mem_limit disk).Run env).1 := by
  unfold Run
  rcases PartialSort_undisturbed env file num_results mem_limit disk other input with
    ⟨_,_,failed,again⟩ | ⟨after,later,run,again,same⟩
  · rw [failed,again]
  · obtain ⟨results,arena⟩ := MergeSort_undisturbed env same
    rw [run,again]
    dsimp only [id]
    rw [results,arena]

/-- The first stage touches its own spill files only, whether it fails or not. -/
theorem PartialSort_touched (env : Env) (self : TopNFreqUrls) : Touched self (self.PartialSort env).2 := by
  have named : (self.file_mgr_.Open env self.disk).2.file_name_ = self.file_mgr_.file_name_ ∧
      (self.file_mgr_.Open env self.disk).2.output_files_ = self.file_mgr_.output_files_ := by
    unfold FileManager.Open
    split <;> exact ⟨rfl,rfl⟩
  unfold PartialSort
  rcases started : self.file_mgr_.Open env self.disk with ⟨_ | _,file_mgr_⟩ <;> rw [started] at named <;>
    have opened : Touched self {self with file_mgr_} := ⟨named.1,named.2.ge,fun _ _ => rfl⟩
  · exact opened
  · have read := head_frame env {self with file_mgr_} 0 (file_mgr_.in_.after.length + 1) (Nat.zero_le _)
    exact opened.trans (read.trans (finish_frame env _).1)

/-- A run, whether it fails or not, changes no other file than its own spill files. -/
theorem Run_leaves (env : Env) (file : Bytes) (num_results : Int32) {mem_limit : UInt64} (disk : Disk)
    (low : 1024 ≤ mem_limit.toNat) (name : Bytes) (other : ∀ i, name ≠ OutputFileName file i) :
    ((TopNFreqUrls.new file num_results mem_limit disk).Run env).2.disk name = disk name := by
  have touched := PartialSort_touched env (TopNFreqUrls.new file num_results mem_limit disk)
  have kept := touched.disk name fun i _ _ => other i
  unfold Run
  rcases sorted : (TopNFreqUrls.new file num_results mem_limit disk).PartialSort env with ⟨_ | _,spilled⟩ <;>
    rw [sorted] at kept
  · exact kept
  · have merged := MergeSort_disk env spilled file (merger_of_passed low sorted) name
    rw [if_neg fun created => other _ created.choose_spec.2] at merged
    exact merged.trans kept

end TopNFreqUrls

open TopNFreqUrls

/-- A call of the program on a file, with a limit of at least 1024 bytes, and what the file system
does meanwhile. -/
structure Job where
  env : Env
  file : Bytes
  num_results : Int32
  mem_limit : UInt64
  low : 1024 ≤ mem_limit.toNat

namespace Job

def run (job : Job) (disk : Disk) : Option (List Bytes) × Disk :=
  let (answer,self) := (TopNFreqUrls.new job.file job.num_results job.mem_limit disk).Run job.env
  (answer,self.disk)

/-- The calls one after the other. -/
def runAll : List Job → Disk → List (Option (List Bytes)) × Disk
  | [], disk => ([],disk)
  | job :: jobs, disk =>
    let (answer,disk) := job.run disk
    let (answers,disk) := runAll jobs disk
    (answer :: answers,disk)

theorem run_leaves (job : Job) (disk : Disk) (name : Bytes) (other : ∀ i, name ≠ OutputFileName job.file i) :
    (job.run disk).2 name = disk name :=
  Run_leaves job.env job.file job.num_results disk job.low name other

theorem run_again (job : Job) (disk other : Disk) (input : other job.file = disk job.file) :
    (job.run other).1 = (job.run disk).1 :=
  Run_undisturbed job.env job.file job.num_results job.mem_limit disk other input

end Job

open Job

/-- Calls with limits of at least 1024 bytes whose inputs are no spill files of one another: each
prints what it prints on the first disk, whatever the earlier ones, failed or not, have left behind. -/
theorem runs_independent (jobs : List Job) (disk : Disk)
    (apart : ∀ job ∈ jobs, ∀ earlier ∈ jobs, ∀ i, job.file ≠ OutputFileName earlier.file i) :
    (runAll jobs disk).1 = jobs.map (fun job => (job.run disk).1) ∧
      ∀ name, (∀ job ∈ jobs, ∀ i, name ≠ OutputFileName job.file i) → (runAll jobs disk).2 name = disk name := by
  induction jobs generalizing disk with
  | nil => exact ⟨rfl,fun _ _ => rfl⟩
  | cons first rest ih =>
    obtain ⟨answers,files⟩ := ih (first.run disk).2 fun job inside earlier among =>
      apart job (List.mem_cons_of_mem _ inside) earlier (List.mem_cons_of_mem _ among)
    constructor
    · refine congrArg _ (answers.trans (List.map_congr_left fun job inside => ?_))
      apply job.run_again
      exact first.run_leaves disk job.file (apart job (List.mem_cons_of_mem _ inside) first List.mem_cons_self)
    · intro name other
      refine (files name fun job inside => other job (List.mem_cons_of_mem _ inside)).trans ?_
      exact first.run_leaves disk name (other first List.mem_cons_self)

/-- The first call finds the disk full, and leaves an empty spill file. -/
def fullThenFree : List Job :=
  [⟨Env.diskFull,[105],2,1024,by decide⟩,⟨Env.reference,[105],2,1024,by decide⟩]

theorem runs_independent_full :
    (runAll (fullThenFree.take 1) (oneFile [98,10,97,10,97])).2 (OutputFileName [105] 0) = some [] ∧
      (runAll fullThenFree (oneFile [98,10,97,10,97])).1 = [none,some [[97,9,50],[98,9,49]]] := by
  have own : ∀ i, ([105] : Bytes) ≠ OutputFileName [105] i := fun i same => by
    have longer := OutputFileName_length [105] i
    rw [← same] at longer
    exact Nat.lt_irrefl _ longer
  obtain ⟨answers,_⟩ := runs_independent fullThenFree (oneFile [98,10,97,10,97]) (by
    intro job inside earlier among i
    simp only [fullThenFree,List.mem_cons,List.not_mem_nil,or_false] at inside among
    rcases inside with rfl | rfl <;> rcases among with rfl | rfl <;> exact own i)
  exact ⟨by decide +kernel,answers.trans (by decide +kernel)⟩

end TopNFreq
