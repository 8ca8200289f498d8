import TopNFreq.Environment
import Mathlib.Data.List.AList
import Mathlib.Algebra.BigOperators.Group.List.Basic

/-! `mem-pool.h`, `mem-pool.cpp`: the memory tracker and the pool, and the part
of the process memory they manage. -/
namespace TopNFreq
open Library.Text

structure MemTracker where
  max_size_ : UInt64
  current_size_ : UInt64
deriving DecidableEq

namespace MemTracker

def new (max_size : UInt64) : MemTracker := ⟨max_size,0⟩

/-- The sum wraps around at 2^64. -/
def TryConsume (self : MemTracker) (size : UInt64) : Bool × MemTracker :=
  if self.current_size_ + size > self.max_size_ then (false,self)
  else (true,{self with current_size_ := self.current_size_ + size})

def Consume (self : MemTracker) (size : UInt64) : MemTracker :=
  {self with current_size_ := self.current_size_ + size}

def Release (self : MemTracker) (size : UInt64) : MemTracker :=
  {self with current_size_ := self.current_size_ - size}

end MemTracker

/-- `chunk_sizes_`: the sizes of the live chunks by address. -/
abbrev Chunks := AList (fun _ : Ptr => UInt64)

def Chunks.bytes (chunks : Chunks) : Nat := (chunks.entries.map fun chunk => chunk.2.toNat).sum

structure MemPool where
  chunk_sizes_ : Chunks

namespace MemPool

/-- `addr` is what `malloc` returns if it is called. -/
def TryAllocate (self : MemPool) (mem_tracker_ : MemTracker) (size : UInt64) (addr : Ptr) :
    Ptr × MemTracker × MemPool :=
  match mem_tracker_.TryConsume size with
  | (false,mem_tracker_) => (nullptr,mem_tracker_,self)
  | (true,mem_tracker_) => (addr,mem_tracker_,⟨self.chunk_sizes_.insert addr size⟩)

def Allocate (self : MemPool) (mem_tracker_ : MemTracker) (size : UInt64) (addr : Ptr) :
    Ptr × MemTracker × MemPool :=
  (addr,mem_tracker_.Consume size,⟨self.chunk_sizes_.insert addr size⟩)

def Free (self : MemPool) (mem_tracker_ : MemTracker) (ptr : Ptr) : MemTracker × MemPool :=
  match self.chunk_sizes_.lookup ptr with
  | none => (mem_tracker_,self)
  | some size => (mem_tracker_.Release size,⟨self.chunk_sizes_.erase ptr⟩)

/-- `~MemPool` -/
def destroy (self : MemPool) (mem_tracker_ : MemTracker) : MemTracker :=
  self.chunk_sizes_.entries.foldl (fun tracker chunk => tracker.Release chunk.2) mem_tracker_

end MemPool

/-! A tracker that counts a sum modulo 2^64 keeps counting it. -/
section Counting
variable {tracker : MemTracker} {total : Nat} (size : UInt64)

theorem ofNat_add_size : UInt64.ofNat total + size = UInt64.ofNat (total + size.toNat) := by
  rw [UInt64.ofNat_add,UInt64.ofNat_toNat]

theorem Consume_counts (counts : tracker.current_size_ = UInt64.ofNat total) :
    (tracker.Consume size).current_size_ = UInt64.ofNat (total + size.toNat) := by
  simp only [MemTracker.Consume,counts,ofNat_add_size]

theorem Release_counts (counts : tracker.current_size_ = UInt64.ofNat (total + size.toNat)) :
    (tracker.Release size).current_size_ = UInt64.ofNat total := by
  simp only [MemTracker.Release,counts,← ofNat_add_size,UInt64.add_sub_cancel]

theorem TryConsume_granted (granted : (tracker.TryConsume size).1 = true) :
    (tracker.TryConsume size).2 = tracker.Consume size := by
  unfold MemTracker.TryConsume at granted ⊢
  split at granted
  · cases granted
  · rename_i within
    rw [if_neg within]
    rfl

theorem TryConsume_refused (refused : (tracker.TryConsume size).1 = false) :
    (tracker.TryConsume size).2 = tracker := by
  unfold MemTracker.TryConsume at refused ⊢
  split at refused
  · rename_i beyond
    rw [if_pos beyond]
  · cases refused

theorem Chunks.bytes_insert (chunks : Chunks) (ptr : Ptr) (fresh : ptr ∉ chunks) :
    Chunks.bytes (chunks.insert ptr size) = chunks.bytes + size.toNat := by
  rw [Chunks.bytes,AList.entries_insert_of_notMem fresh,List.map_cons,List.sum_cons,Nat.add_comm]
  rfl

theorem Chunks.bytes_erase (chunks : Chunks) (ptr : Ptr) (found : chunks.lookup ptr = some size) :
    chunks.bytes = Chunks.bytes (chunks.erase ptr) + size.toNat := by
  have entry : ⟨ptr,size⟩ ∈ chunks.entries := AList.mem_lookup_iff.mp found
  have split := List.perm_cons_erase entry
  have erased := split.kerase (a := ptr) chunks.nodupKeys
  have first : List.kerase ptr (⟨ptr,size⟩ :: chunks.entries.erase ⟨ptr,size⟩) = chunks.entries.erase ⟨ptr,size⟩ :=
    List.kerase_cons_eq rfl
  rw [first] at erased
  have rest : Chunks.bytes (chunks.erase ptr) = ((chunks.entries.erase ⟨ptr,size⟩).map (·.2.toNat)).sum :=
    (erased.map _).sum_eq
  rw [Chunks.bytes,(split.map _).sum_eq,List.map_cons,List.sum_cons,rest,Nat.add_comm]

theorem MemPool.destroy_counts (pool : MemPool)
    (counts : tracker.current_size_ = UInt64.ofNat (total + pool.chunk_sizes_.bytes)) :
    (pool.destroy tracker).current_size_ = UInt64.ofNat total := by
  unfold MemPool.destroy
  unfold Chunks.bytes at counts
  generalize pool.chunk_sizes_.entries = chunks at counts ⊢
  induction chunks generalizing tracker with
  | nil => exact counts
  | cons chunk rest ih =>
    rw [List.map_cons,List.sum_cons,Nat.add_comm chunk.2.toNat,← Nat.add_assoc] at counts
    exact ih (Release_counts chunk.2 counts)

end Counting

inductive PoolOp
  | tryAllocate (size : UInt64)
  | allocate (size : UInt64)
  | free (ptr : Ptr)

structure PoolCall where
  op : PoolOp
  before : Chunks
  after : Chunks

/-- The tracker, the pool, the memory behind it and the number of requests made.
`calls` is a record of all calls, the latest first, that no code reads. -/
structure Arena where
  mem_tracker_ : MemTracker
  mem_pool_ : MemPool
  memory : Memory
  requests : Nat
  calls : List PoolCall

namespace Arena
variable (env : Platform)

def new (mem_limit : UInt64) : Arena := ⟨MemTracker.new mem_limit,⟨∅⟩,fun _ => [],0,[]⟩

def chunks (self : Arena) : Chunks := self.mem_pool_.chunk_sizes_

def address (self : Arena) (size : UInt64) : Ptr := env.malloc self.requests self.chunks.keys size

def TryAllocate (self : Arena) (size : UInt64) : Ptr × Arena :=
  let (ptr,mem_tracker_,mem_pool_) :=
    self.mem_pool_.TryAllocate self.mem_tracker_ size (self.address env size)
  (ptr,{self with
    mem_tracker_, mem_pool_, requests := self.requests + 1
    calls := ⟨.tryAllocate size,self.chunks,mem_pool_.chunk_sizes_⟩ :: self.calls})

def Allocate (self : Arena) (size : UInt64) : Ptr × Arena :=
  let (ptr,mem_tracker_,mem_pool_) :=
    self.mem_pool_.Allocate self.mem_tracker_ size (self.address env size)
  (ptr,{self with
    mem_tracker_, mem_pool_, requests := self.requests + 1
    calls := ⟨.allocate size,self.chunks,mem_pool_.chunk_sizes_⟩ :: self.calls})

/-- The content of a freed block is gone. -/
def Free (self : Arena) (ptr : Ptr) : Arena :=
  let (mem_tracker_,mem_pool_) := self.mem_pool_.Free self.mem_tracker_ ptr
  {self with
    mem_tracker_, mem_pool_
    memory := if ptr ∈ self.chunks then Function.update self.memory ptr [] else self.memory
    calls := ⟨.free ptr,self.chunks,mem_pool_.chunk_sizes_⟩ :: self.calls}

def memcpy (self : Arena) (dest : Ptr) (source : Bytes) : Arena :=
  {self with memory := Function.update self.memory dest source}

end Arena
end TopNFreq
