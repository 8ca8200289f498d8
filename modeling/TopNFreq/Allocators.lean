import TopNFreq.SharedPools

/-! `Allocator<T>` of `mem-pool.h`. Allocators for any types share a tracker with
any number of pools, under every history of calls. -/
namespace TopNFreq
open Library.History

/-- Of `T` the class uses only `sizeof(T)`, and that inside `std::allocator<T>`. -/
structure Allocator where
  sizeof_T : Nat
  positive : 0 < sizeof_T
deriving DecidableEq

namespace Allocator

/-- `block` is what `std::allocator<T>::allocate` returns, `none` when it throws:
then `Consume` has been called already. -/
def allocate (_self : Allocator) (mem_tracker_ : MemTracker) (n : UInt64) (block : Option Ptr) :
    Option Ptr × MemTracker := (block,mem_tracker_.Consume n)

def deallocate (_self : Allocator) (mem_tracker_ : MemTracker) (_p : Ptr) (n : UInt64) : MemTracker :=
  mem_tracker_.Release n

/-- An array of `n` values that `allocate` has returned at `p`. -/
structure Block where
  allocator : Allocator
  p : Ptr
  n : UInt64
deriving DecidableEq

end Allocator

open Allocator

/-- `blocks` and `thrown` are ledgers that no code reads: the blocks that have not been
given back, and the elements of the requests that ended in an exception. -/
structure Shared where
  pools : Pools
  blocks : List Block
  thrown : Nat

inductive SharedCall
  | pools (op : PoolsCall)
  | allocate (allocator : Allocator) (n : UInt64) (block : Option Ptr)
  | deallocate (allocator : Allocator) (p : Ptr) (n : UInt64)

namespace Shared

def start (max_size : UInt64) : Shared := ⟨Pools.start max_size,[],0⟩

def call (s : Shared) : SharedCall → Shared
  | .pools op => {s with pools := s.pools.call op}
  | .allocate allocator n block =>
    let (p,mem_tracker_) := allocator.allocate s.pools.mem_tracker_ n block
    ⟨{s.pools with mem_tracker_ := mem_tracker_},(p.map (⟨allocator,·,n⟩)).toList ++ s.blocks,
      if p.isSome then s.thrown else s.thrown + n.toNat⟩
  | .deallocate allocator p n =>
    let mem_tracker_ := allocator.deallocate s.pools.mem_tracker_ p n
    {s with pools := {s.pools with mem_tracker_ := mem_tracker_}, blocks := s.blocks.erase ⟨allocator,p,n⟩}

/-- `deallocate` is called with what `allocate` has returned, and the `n` it was asked for. -/
def Legal (s : Shared) : SharedCall → Prop
  | .pools op => s.pools.Legal op
  | .allocate _ _ _ => True
  | .deallocate allocator p n => ⟨allocator,p,n⟩ ∈ s.blocks

instance (s : Shared) : (op : SharedCall) → Decidable (Legal s op)
  | .pools op => inferInstanceAs (Decidable (s.pools.Legal op))
  | .allocate _ _ _ => isTrue trivial
  | .deallocate _ _ _ => inferInstanceAs (Decidable (_ ∈ _))

def elements (s : Shared) : Nat := (s.blocks.map (·.n.toNat)).sum

/-- The bytes that are really in use. -/
def footprint (s : Shared) : Nat := s.pools.bytes + (s.blocks.map fun b => b.n.toNat * b.allocator.sizeof_T).sum

end Shared

/-! What the tracker counts besides the pools is a shift that no call on a pool changes. -/
namespace Pools

def without (s : Pools) (others : UInt64) : Pools := {s with mem_tracker_ := s.mem_tracker_.Release others}

theorem Release_Consume (tracker : MemTracker) (size others : UInt64) :
    (tracker.Consume size).Release others = (tracker.Release others).Consume size := by
  simp only [MemTracker.Consume,MemTracker.Release]
  congr 1
  grind

theorem Release_comm (tracker : MemTracker) (size others : UInt64) :
    (tracker.Release size).Release others = (tracker.Release others).Release size := by
  simp only [MemTracker.Release]
  congr 1
  grind

theorem destroy_without (pool : MemPool) (tracker : MemTracker) (others : UInt64) :
    (pool.destroy tracker).Release others = pool.destroy (tracker.Release others) := by
  unfold MemPool.destroy
  induction pool.chunk_sizes_.entries generalizing tracker with
  | nil => rfl
  | cons chunk rest ih => rw [List.foldl_cons,List.foldl_cons,ih,Release_comm]

/-- All calls but `TryAllocate` do the same whatever else the tracker counts. -/
theorem call_without (s : Pools) (others : UInt64) :
    (s.call .create).without others = (s.without others).call .create ∧
    (∀ i size addr, (s.call (.allocate i size addr)).without others = (s.without others).call (.allocate i size addr)) ∧
    (∀ i ptr, (s.call (.free i ptr)).without others = (s.without others).call (.free i ptr)) ∧
    ∀ i, (s.call (.destroy i)).without others = (s.without others).call (.destroy i) := by
  refine ⟨rfl,fun i size addr => ?_,fun i ptr => ?_,fun i => ?_⟩
  · cases found : s.pool i with
    | none =>
      have same : (s.without others).pool i = none := found
      simp only [call,found,same]
    | some pool =>
      have same : (s.without others).pool i = some pool := found
      simp only [call,found,same,MemPool.Allocate]
      exact congrArg (Pools.mk · _ _) (Release_Consume s.mem_tracker_ size others)
  · cases found : s.pool i with
    | none =>
      have same : (s.without others).pool i = none := found
      simp only [call,found,same]
    | some pool =>
      have same : (s.without others).pool i = some pool := found
      simp only [call,found,same,MemPool.Free]
      cases pool.chunk_sizes_.lookup ptr with
      | none => rfl
      | some size => exact congrArg (Pools.mk · _ _) (Release_comm s.mem_tracker_ size others)
  · cases found : s.pool i with
    | none =>
      have same : (s.without others).pool i = none := found
      simp only [call,found,same]
    | some pool =>
      have same : (s.without others).pool i = some pool := found
      simp only [call,found,same]
      exact congrArg (Pools.mk · _ _) (destroy_without pool s.mem_tracker_ others)

/-- Whatever else the tracker counts, a legal call keeps the rest in agreement. -/
theorem Agrees.call_without {s : Pools} {others : UInt64} (agrees : (s.without others).Agrees) (op : PoolsCall)
    (legal : s.Legal op) : ((s.call op).without others).Agrees := by
  obtain ⟨create,allocate,free,destroy⟩ := s.call_without others
  cases op with
  | create => exact create ▸ agrees.create
  | tryAllocate i size addr =>
    rw [call_tryAllocate]
    split
    · rw [allocate]
      exact Agrees.call _ (.allocate i size addr) agrees legal
    · exact agrees
  | allocate i size addr =>
    rw [allocate]
    exact Agrees.call _ (.allocate i size addr) agrees legal
  | free i ptr =>
    rw [free]
    exact Agrees.call _ (.free i ptr) agrees legal
  | destroy i =>
    rw [destroy]
    exact Agrees.call _ (.destroy i) agrees legal

end Pools

namespace Shared

/-- Besides the bytes in the pools the tracker counts elements, those of lost requests included. -/
def Agrees (s : Shared) : Prop := (s.pools.without (UInt64.ofNat (s.elements + s.thrown))).Agrees

theorem agrees_recount {pools : Pools} {others others' : UInt64} (tracker : MemTracker)
    (counted : tracker.current_size_ - others' = pools.mem_tracker_.current_size_ - others)
    (agrees : (pools.without others).Agrees) :
    (Pools.without {pools with mem_tracker_ := tracker} others').Agrees :=
  ⟨counted.trans agrees.tracked,agrees.ledger,agrees.nonnull⟩

theorem Agrees.call (s : Shared) (op : SharedCall) (agrees : s.Agrees) (legal : Legal s op) : (s.call op).Agrees := by
  cases op with
  | pools op => exact Pools.Agrees.call_without agrees op legal
  | allocate allocator n block =>
    refine agrees_recount _ ?_ agrees
    have total : (s.call (.allocate allocator n block)).elements + (s.call (.allocate allocator n block)).thrown =
        s.elements + s.thrown + n.toNat := by
      cases block with
      | none => simp [Shared.call,Allocator.allocate,elements,Nat.add_assoc]
      | some p =>
        simp only [Shared.call,Allocator.allocate,elements,Option.map_some,Option.toList_some,List.cons_append,
          List.nil_append,List.map_cons,List.sum_cons,Option.isSome_some,if_true]
        omega
    rw [total,← ofNat_add_size]
    simp only [MemTracker.Consume]
    grind
  | deallocate allocator p n =>
    refine agrees_recount _ ?_ agrees
    have total : s.elements + s.thrown = (s.call (.deallocate allocator p n)).elements +
        (s.call (.deallocate allocator p n)).thrown + n.toNat := by
      have taken := ((List.perm_cons_erase legal).map (·.n.toNat)).sum_eq
      simp only [List.map_cons,List.sum_cons] at taken
      simp only [Shared.call,elements]
      omega
    rw [total,← ofNat_add_size]
    simp only [Allocator.deallocate,MemTracker.Release]
    grind

theorem agrees_start (max_size : UInt64) : (start max_size).Agrees := by
  have agrees := Pools.agrees_start max_size
  exact ⟨show (0 : UInt64) - UInt64.ofNat 0 = UInt64.ofNat 0 by decide,agrees.ledger,agrees.nonnull⟩

theorem elements_eq_iff (blocks : List Block) :
    (blocks.map (·.n.toNat)).sum ≤ (blocks.map fun b => b.n.toNat * b.allocator.sizeof_T).sum ∧
    ((blocks.map (·.n.toNat)).sum = (blocks.map fun b => b.n.toNat * b.allocator.sizeof_T).sum ↔
      ∀ b ∈ blocks, b.n = 0 ∨ b.allocator.sizeof_T = 1) := by
  induction blocks with
  | nil => simp
  | cons b blocks ih =>
    have least : b.n.toNat ≤ b.n.toNat * b.allocator.sizeof_T := Nat.le_mul_of_pos_right _ b.allocator.positive
    have exact : b.n.toNat = b.n.toNat * b.allocator.sizeof_T ↔ b.n = 0 ∨ b.allocator.sizeof_T = 1 := by
      rw [eq_comm,mul_right_eq_self₀,← UInt64.toNat_inj,or_comm]
      rfl
    simp only [List.map_cons,List.sum_cons,List.forall_mem_cons,← ih.2,← exact]
    omega

end Shared

open Shared

/-- Over every history of pools and allocators on one tracker: the tracker counts the bytes
in the pools, the elements (not the bytes) in the live blocks and the elements of every request
that has thrown. It is the footprint only while every block has elements of one byte, and
it does not fall back to zero after an exception. -/
theorem allocators_count_elements (max_size : UInt64) (calls : List SharedCall)
    (legal : Along Shared.call Legal (Shared.start max_size) calls) (s : Shared)
    (reached : s = run Shared.call (Shared.start max_size) calls) :
    s.pools.mem_tracker_.current_size_.toNat = (s.pools.bytes + s.elements + s.thrown) % 2^64 ∧
    (∀ i ptr size, s.pools.size i ptr = some size ↔ s.pools.requested ptr = some (i,size)) ∧
    (s.footprint < 2^64 → s.thrown = 0 → s.pools.mem_tracker_.current_size_.toNat ≤ s.footprint ∧
      (s.pools.mem_tracker_.current_size_.toNat = s.footprint ↔
        ∀ b ∈ s.blocks, b.n = 0 ∨ b.allocator.sizeof_T = 1)) ∧
    ((∀ i, s.pools.pool i = none) → s.blocks = [] →
      s.pools.mem_tracker_.current_size_ = UInt64.ofNat s.thrown) := by
  have agrees : s.Agrees :=
    reached ▸ run_invariant Shared.Agrees Agrees.call _ (Shared.agrees_start max_size) calls legal
  have tracked : s.pools.mem_tracker_.current_size_ = UInt64.ofNat (s.pools.bytes + (s.elements + s.thrown)) := by
    rw [UInt64.ofNat_add,← show _ = UInt64.ofNat s.pools.bytes from agrees.tracked]
    exact (UInt64.sub_add_cancel _ _).symm
  have counted : s.pools.mem_tracker_.current_size_.toNat = (s.pools.bytes + s.elements + s.thrown) % 2^64 := by
    rw [tracked,Nat.add_assoc]
    exact UInt64.toNat_ofNat'
  refine ⟨counted,agrees.ledger,fun small none => ?_,fun gone empty => ?_⟩
  · obtain ⟨least,same⟩ := elements_eq_iff s.blocks
    rw [counted,none,Nat.add_zero,← same]
    unfold footprint at small ⊢
    unfold elements
    rw [Nat.mod_eq_of_lt (by omega)]
    omega
  · rw [tracked,Pools.bytes_none s.pools gone,elements,empty]
    simp

/-- Ten values of eight bytes, a request that throws and a pool that is destroyed. -/
theorem allocators_count_elements_throw : ∃ s, s = run Shared.call (Shared.start 100) [.pools .create,
      .allocate ⟨8,by decide⟩ 10 (some 7),.pools (.tryAllocate 0 85 8),.allocate ⟨8,by decide⟩ 3 none,
      .deallocate ⟨8,by decide⟩ 7 10,.pools (.destroy 0)] ∧
    s.pools.mem_tracker_.current_size_ = UInt64.ofNat s.thrown := by
  refine ⟨_,rfl,(allocators_count_elements 100 _ (by decide) _ rfl).2.2.2 (fun i => ?_) rfl⟩
  rcases i with _ | i
  · rfl
  · rfl

end TopNFreq
