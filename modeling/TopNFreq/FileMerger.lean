import TopNFreq.FileManager

/-! `FileMerger` of `file-manager.h`, `file-manager.cpp`: reading rows back and
merging the spill files with a heap that holds one row of every file. -/
namespace TopNFreq
open Library.Text Library.InputStream

structure FileMerger where
  base_file_name_ : Bytes
  sorted_files_ : List IStream
  drained_ : List Bool
  res_tuples_heap_ : List ResultTuple
  test_mode : Bool

def resize {α : Type} (items : List α) (size : Nat) (fill : α) : List α :=
  items.take size ++ List.replicate (size - items.length) fill

namespace FileMerger

def new (base_file_name : Bytes) : FileMerger := ⟨base_file_name,[],[],[],false⟩

/-- The constructor used in tests. -/
def ofInputs (inputs : List IStream) : FileMerger := ⟨[],inputs,[],[],true⟩

/-- `res` is what `*res` holds at the call; the count keeps that value where the
extraction stores none, and the result of the extraction is not looked at. -/
def NextResultTupleInFile (env : Platform) (in_ : IStream) (pool : Arena) (res : ResultTuple) :
    Bool × IStream × Arena × ResultTuple :=
  match FileManager.ReadLine in_ MAX_URL_LEN tab with
  | (in_,none) => (false,in_,pool,res)
  | (in_,some url_buffer) =>
    let (ptr,pool) := pool.Allocate env (UInt64.ofNat url_buffer.length)
    let pool := pool.memcpy ptr url_buffer
    let (in_,cnt) := in_.extractInt res.cnt
    (true,in_.get.1,pool,{res with str := ⟨ptr,url_buffer.length⟩, cnt})

/-- Read the next row of file `i` into the heap or mark the file as drained. -/
def refill (env : Platform) (self : FileMerger) (pool : Arena) (i : Nat) : FileMerger × Arena :=
  match NextResultTupleInFile env (self.sorted_files_.getD i .unopened) pool (env.uninit pool.requests) with
  | (false,in_,pool,_) =>
    ({self with sorted_files_ := self.sorted_files_.set i in_, drained_ := self.drained_.set i true},pool)
  | (true,in_,pool,tuple) =>
    ({self with
      sorted_files_ := self.sorted_files_.set i in_
      res_tuples_heap_ := env.queue.push (StringLess pool.memory) self.res_tuples_heap_
        {tuple with file_index := i}},pool)

def openSpill (env : Env) (disk : Disk) (base_file_name : Bytes) (i : Nat) : IStream :=
  match if env.faults.openSpill i then none else disk (FileManager.OutputFileName base_file_name i) with
  | none => .unopened
  | some content => .opened content (env.faults.readSpill i)

/-- Whether the files could be opened is not looked at. -/
def OpenInternal (env : Env) (disk : Disk) (self : FileMerger) (num_files : Nat) : FileMerger :=
  (List.range num_files).foldl (fun self i =>
    {self with
      sorted_files_ := self.sorted_files_ ++ [openSpill env disk self.base_file_name_ i]
      drained_ := self.drained_.set i false}) self

def Open (env : Env) (disk : Disk) (self : FileMerger) (pool : Arena) (num_files : Nat) :
    Bool × FileMerger × Arena :=
  let self := {self with drained_ := resize self.drained_ num_files false}
  let self := if self.test_mode then self else self.OpenInternal env disk num_files
  let (self,pool) := (List.range num_files).foldl (fun (self,pool) i =>
    if self.drained_.getD i true then (self,pool) else self.refill env.toPlatform pool i) (self,pool)
  (true,self,pool)

def Close (disk : Disk) (self : FileMerger) : Bool × Disk :=
  if self.test_mode then (true,disk)
  else (true,(List.range self.sorted_files_.length).foldl (fun disk i =>
    Function.update disk (FileManager.OutputFileName self.base_file_name_ i) none) disk)

def NextResultTuple (env : Platform) (self : FileMerger) (pool : Arena) (res : ResultTuple) :
    Bool × FileMerger × Arena × ResultTuple :=
  match self.res_tuples_heap_ with
  | [] => (false,self,pool,res)
  | top :: rest =>
    let self := {self with res_tuples_heap_ := env.queue.pop (StringLess pool.memory) (top :: rest)}
    let i := top.file_index
    let (self,pool) := if self.drained_.getD i true then (self,pool) else self.refill env pool i
    (true,self,pool,top)

end FileMerger
end TopNFreq
