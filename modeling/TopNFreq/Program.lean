import TopNFreq.FileMerger

/-! `topn-freq-urls.h`, `topn-freq-urls.cpp`, `main.cpp`: the two stages of the
external sort and the argument check in front of them. -/
namespace TopNFreq
open Library.Text Library.InputStream Library.Loop

structure TopNFreqUrls where
  num_results_ : Int32
  urls_scanned_ : UInt64
  arena : Arena
  file_mgr_ : FileManager
  file_merger_ : FileMerger
  disk : Disk

namespace TopNFreqUrls

def new (input_file : Bytes) (num_results : Int32) (mem_limit : UInt64) (disk : Disk) : TopNFreqUrls :=
  ⟨num_results,0,Arena.new mem_limit,FileManager.new input_file,FileMerger.new input_file,disk⟩

def write (env : Env) (self : TopNFreqUrls) (res : ResultTuple) : Bool × TopNFreqUrls :=
  let (ok,disk,file_mgr_) := self.file_mgr_.WriteResultTuple env self.arena.memory self.disk res
  (ok,{self with disk, file_mgr_})

/-- The loop over the sorted URLs, with the tuple that is being counted. -/
def countRuns (env : Env) (self : TopNFreqUrls) (curr_tuple : ResultTuple) :
    List StringVal → Bool × TopNFreqUrls × ResultTuple
  | [] => (true,self,curr_tuple)
  | url :: urls =>
    if curr_tuple.IsEmpty then countRuns env self (curr_tuple.Init url) urls
    else if curr_tuple.str.StrEquals self.arena.memory url then
      countRuns env self {curr_tuple with cnt := curr_tuple.cnt + 1} urls
    else match self.write env curr_tuple with
      | (false,self) => (false,self,curr_tuple)
      | (true,self) => countRuns env self (curr_tuple.Init url) urls

/-- `if (!curr_tuple.IsEmpty()) RETURN_ON_FALSE(file_mgr_.WriteResultTuple(curr_tuple))` -/
def writeLast (env : Env) (self : TopNFreqUrls) (curr_tuple : ResultTuple) : Bool × TopNFreqUrls :=
  if curr_tuple.IsEmpty then (true,self) else self.write env curr_tuple

def freeAll (self : TopNFreqUrls) (urls : List StringVal) : TopNFreqUrls :=
  {self with arena := urls.foldl (fun arena url => arena.Free url.ptr) self.arena}

def AggregateAndSpillToDisk (env : Env) (self : TopNFreqUrls) (urls : List StringVal) :
    Bool × TopNFreqUrls × List StringVal :=
  match self.file_mgr_.NewOutputFile env self.disk with
  | (false,disk,file_mgr_) => (false,{self with disk, file_mgr_},urls)
  | (true,disk,file_mgr_) =>
    let self := {self with disk, file_mgr_}
    let urls := env.sorting.sort (StringVal.less self.arena.memory) urls
    match self.countRuns env (env.uninit self.arena.requests).SetEmpty urls with
    | (false,self,_) => (false,self,urls)
    | (true,self,curr_tuple) =>
      match self.writeLast env curr_tuple with
      | (false,self) => (false,self,urls)
      | (true,self) => (true,self.freeAll urls,[])

/-- A chunk for the next URL, after a spill if the pool is full. -/
def reserve (env : Env) (self : TopNFreqUrls) (urls : List StringVal) (len : Nat) :
    Bool × Ptr × TopNFreqUrls × List StringVal :=
  match self.arena.TryAllocate env.toPlatform (UInt64.ofNat len) with
  | (ptr,arena) =>
    let self := {self with arena}
    if ptr = nullptr then
      match self.AggregateAndSpillToDisk env urls with
      | (false,self,urls) => (false,nullptr,self,urls)
      | (true,self,urls) =>
        match self.arena.TryAllocate env.toPlatform (UInt64.ofNat len) with
        | (ptr,arena) => (true,ptr,{self with arena},urls)
    else (true,ptr,self,urls)

inductive Status
  | running
  | finished
  | failed
deriving DecidableEq

structure PartialState where
  self : TopNFreqUrls
  urls : List StringVal
  status : Status

/-- `memcpy(str.ptr, url_buf_, str.len); urls.push_back(str); ++urls_scanned_;` -/
def store (self : TopNFreqUrls) (urls : List StringVal) (ptr : Ptr) (url_buf_ : Bytes) : PartialState :=
  ⟨{self with arena := self.arena.memcpy ptr url_buf_, urls_scanned_ := self.urls_scanned_ + 1},
    urls ++ [⟨ptr,url_buf_.length⟩],.running⟩

def withInput (self : TopNFreqUrls) (in_ : IStream) : TopNFreqUrls :=
  {self with file_mgr_ := {self.file_mgr_ with in_}}

def PartialSort.step (env : Env) (s : PartialState) : Option PartialState :=
  match s.status with
  | .running =>
    match FileManager.ReadLine s.self.file_mgr_.in_ MAX_URL_LEN newline with
    | (in_,none) => some ⟨s.self.withInput in_,s.urls,.finished⟩
    | (in_,some url_buf_) =>
      match (s.self.withInput in_).reserve env s.urls url_buf_.length with
      | (false,_,self,urls) => some ⟨self,urls,.failed⟩
      | (true,ptr,self,urls) => some (self.store urls ptr url_buf_)
  | _ => none

def PartialSort.head (env : Env) (self : TopNFreqUrls) (n : Nat) : PartialState :=
  loop (PartialSort.step env) n ⟨self,[],.running⟩

def PartialSort.finish (env : Env) (s : PartialState) : Bool × TopNFreqUrls :=
  if s.status = .failed then (false,s.self)
  else
    match if s.urls.isEmpty then (true,s.self,s.urls) else s.self.AggregateAndSpillToDisk env s.urls with
    | (false,self,_) => (false,self)
    | (true,self,_) =>
      let (ok,file_mgr_) := self.file_mgr_.Close
      (ok,{self with file_mgr_})

def PartialSort (env : Env) (self : TopNFreqUrls) : Bool × TopNFreqUrls :=
  match self.file_mgr_.Open env self.disk with
  | (false,file_mgr_) => (false,{self with file_mgr_})
  | (true,file_mgr_) =>
    PartialSort.finish env (PartialSort.head env {self with file_mgr_} (file_mgr_.in_.after.length + 1))

/-- `num_results_`, converted to the type of `heap->size()`. -/
def limit (self : TopNFreqUrls) : Nat := (UInt64.ofInt self.num_results_.toInt).toNat

/-- `while (heap->size() > num_results_)`; the top is freed before it is popped. -/
def evict (env : Env) (limit : Nat) (s : Arena × List ResultTuple) : Option (Arena × List ResultTuple) :=
  if limit < s.2.length then
    match s.2 with
    | [] => none
    | top :: rest =>
      let arena := s.1.Free top.str.ptr
      some (arena,env.queue.pop (ResultTuple.less arena.memory) (top :: rest))
  else none

def UpdateHeap (env : Env) (self : TopNFreqUrls) (tuple : ResultTuple) (heap : List ResultTuple) :
    TopNFreqUrls × List ResultTuple :=
  let heap := env.queue.push (ResultTuple.less self.arena.memory) heap tuple
  let (arena,heap) := loop (evict env self.limit) heap.length (self.arena,heap)
  ({self with arena},heap)

/-- The variables of the loop of `MergeSort`. `taken` records the rows the merger
has delivered, with their files; no code reads it. -/
structure MergeState where
  self : TopNFreqUrls
  curr_tuple : ResultTuple
  next_tuple : ResultTuple
  topN_tuples : List ResultTuple
  finished : Bool
  taken : List (Bytes × Int32 × Nat)

def MergeSort.body (env : Env) (s : MergeState) : MergeState :=
  if s.curr_tuple.IsEmpty then {s with curr_tuple := s.next_tuple}
  else if s.curr_tuple.StrEquals s.self.arena.memory s.next_tuple then
    {s with
      curr_tuple := {s.curr_tuple with cnt := s.curr_tuple.cnt + s.next_tuple.cnt}
      self := {s.self with arena := s.self.arena.Free s.next_tuple.str.ptr}}
  else
    let (self,topN_tuples) := s.self.UpdateHeap env s.curr_tuple s.topN_tuples
    {s with self, topN_tuples, curr_tuple := s.next_tuple}

def MergeSort.step (env : Env) (s : MergeState) : Option MergeState :=
  if s.finished then none
  else
    match s.self.file_merger_.NextResultTuple env.toPlatform s.self.arena s.next_tuple with
    | (false,file_merger_,arena,next_tuple) =>
      some {s with self := {s.self with file_merger_, arena}, next_tuple, finished := true}
    | (true,file_merger_,arena,next_tuple) =>
      some (MergeSort.body env {s with
        self := {s.self with file_merger_, arena}
        next_tuple
        taken := s.taken ++ [(next_tuple.str.toString arena.memory,next_tuple.cnt,next_tuple.file_index)]})

/-- The state in front of the loop; `Open` always answers true. -/
def MergeSort.start (env : Env) (self : TopNFreqUrls) : MergeState :=
  let (_,file_merger_,arena) :=
    self.file_merger_.Open env self.disk self.arena self.file_mgr_.TotalOutputFiles
  ⟨{self with file_merger_, arena},(env.uninit arena.requests).SetEmpty,env.uninit arena.requests,[],false,[]⟩

def MergeSort.head (env : Env) (self : TopNFreqUrls) (n : Nat) : MergeState :=
  loop (MergeSort.step env) n (MergeSort.start env self)

/-- A number of rounds that is enough: a row is in the heap or takes a byte of a file. -/
def MergeSort.rounds (s : MergeState) : Nat :=
  (s.self.file_merger_.sorted_files_.map fun in_ => in_.after.length).sum +
    s.self.file_merger_.res_tuples_heap_.length + 1

/-- `for (i = size - 1; i >= 0; --i)`: fill the results from the back. -/
def fillResults (env : Env) (mem : Memory) :
    Nat → List ResultTuple → List ResultTuple → List ResultTuple
  | 0, results, _ => results
  | i+1, results, heap =>
    fillResults env mem i (results.set i (heap.headD default)) (env.queue.pop (ResultTuple.less mem) heap)

def MergeSort.finish (env : Env) (s : MergeState) : Bool × TopNFreqUrls × List ResultTuple :=
  let (self,topN_tuples) :=
    if s.curr_tuple.IsEmpty then (s.self,s.topN_tuples)
    else s.self.UpdateHeap env s.curr_tuple s.topN_tuples
  let (_,disk) := self.file_merger_.Close self.disk
  let self := {self with disk}
  if topN_tuples.isEmpty then (true,self,[])
  else
    let results := List.replicate topN_tuples.length default
    (true,self,fillResults env self.arena.memory topN_tuples.length results topN_tuples)

def MergeSort (env : Env) (self : TopNFreqUrls) : Bool × TopNFreqUrls × List ResultTuple :=
  MergeSort.finish env (MergeSort.head env self (MergeSort.rounds (MergeSort.start env self)))

/-- The result lines printed, `none` when the first stage fails. The result of
`MergeSort` is not looked at. -/
def Run (env : Env) (self : TopNFreqUrls) : Option (List Bytes) × TopNFreqUrls :=
  match self.PartialSort env with
  | (false,self) => (none,self)
  | (true,self) =>
    let (_,self,results) := self.MergeSort env
    (some (results.map (ResultTuple.toString self.arena.memory)),self)

end TopNFreqUrls

/-- `atoi(argv[3]) * 1024L * 1024L`, converted to `uint64_t`. -/
def memLimit (mem_limit_in_mb : Int32) : UInt64 := UInt64.ofInt (mem_limit_in_mb.toInt * 1024 * 1024)

/-- The argument check: `num_results <= 0 || mem_limit <= 0` is an error. -/
def argumentsAccepted (num_results mem_limit_in_mb : Int32) : Bool :=
  !(num_results ≤ 0 || memLimit mem_limit_in_mb ≤ 0)

def main (env : Env) (disk : Disk) (file_path : Bytes) (num_results mem_limit_in_mb : Int32) :
    Option (Option (List Bytes) × TopNFreqUrls) :=
  if argumentsAccepted num_results mem_limit_in_mb then
    some ((TopNFreqUrls.new file_path num_results (memLimit mem_limit_in_mb) disk).Run env)
  else none

end TopNFreq
