import TopNFreq.MemPool
import TopNFreq.Library.History

/-! Any number of pools that share one tracker, under every history of requests,
`Free`s and destructions. The ledger of the requests says what the maps of the
pools have to hold. -/
namespace TopNFreq
open Library.History

/-- `pools` holds the pools by their number, `none` for one that has been destroyed.
`requested` is the ledger: for every address that has served a request and not been
freed, the pool and the size it was requested with. It follows the calls, not what the
pools do, and no code reads it. -/
structure Pools where
  mem_tracker_ : MemTracker
  pools : List (Option MemPool)
  requested : Ptr → Option (Nat × UInt64)

inductive PoolsCall
  | create
  | tryAllocate (pool : Nat) (size : UInt64) (addr : Ptr)
  | allocate (pool : Nat) (size : UInt64) (addr : Ptr)
  | free (pool : Nat) (ptr : Ptr)
  | destroy (pool : Nat)

namespace Pools

def start (max_size : UInt64) : Pools := ⟨MemTracker.new max_size,[],fun _ => none⟩

def pool (s : Pools) (i : Nat) : Option MemPool := s.pools.getD i none

def size (s : Pools) (i : Nat) (ptr : Ptr) : Option UInt64 := (s.pool i).bind (·.chunk_sizes_.lookup ptr)

def bytes (s : Pools) : Nat := (s.pools.map fun p => p.elim 0 (·.chunk_sizes_.bytes)).sum

/-- The request stays within the limit, by the sum of `uint64_t`. -/
def Within (s : Pools) (size : UInt64) : Prop :=
  s.mem_tracker_.current_size_ + size ≤ s.mem_tracker_.max_size_

instance (s : Pools) (size : UInt64) : Decidable (Within s size) := inferInstanceAs (Decidable (_ ≤ _))

def record (s : Pools) (i : Nat) (addr : Ptr) (size : UInt64) : Ptr → Option (Nat × UInt64) :=
  Function.update s.requested addr (some (i,size))

def call (s : Pools) : PoolsCall → Pools
  | .create => {s with pools := s.pools ++ [some ⟨∅⟩]}
  | .tryAllocate i size addr =>
    match s.pool i with
    | none => s
    | some pool =>
      let (_,mem_tracker_,pool) := pool.TryAllocate s.mem_tracker_ size addr
      ⟨mem_tracker_,s.pools.set i (some pool),if s.Within size then s.record i addr size else s.requested⟩
  | .allocate i size addr =>
    match s.pool i with
    | none => s
    | some pool =>
      let (_,mem_tracker_,pool) := pool.Allocate s.mem_tracker_ size addr
      ⟨mem_tracker_,s.pools.set i (some pool),s.record i addr size⟩
  | .free i ptr =>
    match s.pool i with
    | none => s
    | some pool =>
      let (mem_tracker_,pool) := pool.Free s.mem_tracker_ ptr
      ⟨mem_tracker_,s.pools.set i (some pool),
        if (s.requested ptr).map Prod.fst = some i then Function.update s.requested ptr none else s.requested⟩
  | .destroy i =>
    match s.pool i with
    | none => s
    | some pool =>
      ⟨pool.destroy s.mem_tracker_,s.pools.set i none,fun ptr => (s.requested ptr).filter fun r => r.1 ≠ i⟩

/-- `malloc` returns an address that is neither null nor live in any pool. -/
def Fresh (s : Pools) (addr : Ptr) : Prop := addr ≠ nullptr ∧ ∀ j, s.size j addr = none

def Legal (s : Pools) : PoolsCall → Prop
  | .create => True
  | .tryAllocate i _ addr => (s.pool i).isSome ∧ s.Fresh addr
  | .allocate i _ addr => (s.pool i).isSome ∧ s.Fresh addr
  | .free i _ => (s.pool i).isSome
  | .destroy i => (s.pool i).isSome

instance (s : Pools) (addr : Ptr) : Decidable (Fresh s addr) :=
  decidable_of_iff (addr ≠ nullptr ∧ ∀ j < s.pools.length, s.size j addr = none) <| and_congr_right fun _ => by
    refine ⟨fun inside j => ?_,fun all j _ => all j⟩
    by_cases bound : j < s.pools.length
    · exact inside j bound
    · simp [Pools.size,Pools.pool,List.getD_eq_getElem?_getD,List.getElem?_eq_none (Nat.le_of_not_lt bound)]

instance (s : Pools) : (op : PoolsCall) → Decidable (Legal s op)
  | .create => isTrue trivial
  | .tryAllocate _ _ _ => inferInstanceAs (Decidable (_ ∧ _))
  | .allocate _ _ _ => inferInstanceAs (Decidable (_ ∧ _))
  | .free _ _ => inferInstanceAs (Decidable (_ = true))
  | .destroy _ => inferInstanceAs (Decidable (_ = true))

/-- The tracker counts the bytes in all pools modulo 2^64, and the maps are the ledger. -/
structure Agrees (s : Pools) : Prop where
  tracked : s.mem_tracker_.current_size_ = UInt64.ofNat s.bytes
  ledger : ∀ i ptr size, s.size i ptr = some size ↔ s.requested ptr = some (i,size)
  nonnull : s.requested nullptr = none

theorem bytes_set (pools : List (Option MemPool)) (i : Nat) (old : MemPool) (new : Option MemPool)
    (found : pools.getD i none = some old) :
    ((pools.set i new).map fun p => p.elim 0 (·.chunk_sizes_.bytes)).sum + old.chunk_sizes_.bytes =
      (pools.map fun p => p.elim 0 (·.chunk_sizes_.bytes)).sum + new.elim 0 (·.chunk_sizes_.bytes) := by
  induction pools generalizing i with
  | nil => cases found
  | cons head tail ih =>
    cases i with
    | zero =>
      obtain rfl : head = some old := found
      simp only [List.set_cons_zero,List.map_cons,List.sum_cons,Option.elim_some]
      omega
    | succ i =>
      have rest := ih i found
      simp only [List.set_cons_succ,List.map_cons,List.sum_cons]
      omega

theorem pool_lt {s : Pools} {i : Nat} {pool : MemPool} (found : s.pool i = some pool) : i < s.pools.length := by
  by_contra outside
  simp [Pools.pool,List.getD_eq_getElem?_getD,Nat.le_of_not_lt outside] at found

theorem pool_set {s : Pools} {i : Nat} {old : MemPool} (found : s.pool i = some old) (new : Option MemPool)
    (j : Nat) : (s.pools.set i new).getD j none = if j = i then new else s.pool j := by
  have inside := pool_lt found
  by_cases same : j = i
  · subst same
    simp [List.getD_eq_getElem?_getD,inside]
  · simp [List.getD_eq_getElem?_getD,Pools.pool,same,List.getElem?_set_ne (Ne.symm same)]

theorem set_same {s : Pools} {i : Nat} {pool : MemPool} (found : s.pool i = some pool) :
    s.pools.set i (some pool) = s.pools := by
  apply List.ext_getElem?
  intro j
  by_cases same : j = i
  · subst same
    have inside := pool_lt found
    simp only [Pools.pool,List.getD_eq_getElem?_getD,List.getElem?_eq_getElem inside,Option.getD_some] at found
    rw [List.getElem?_set_self inside,List.getElem?_eq_getElem inside,found]
  · exact List.getElem?_set_ne (Ne.symm same)

theorem size_set {s : Pools} {i : Nat} {old : MemPool} (found : s.pool i = some old) (new : Option MemPool)
    (tracker : MemTracker) (ledger : Ptr → Option (Nat × UInt64)) (j : Nat) (ptr : Ptr) :
    (⟨tracker,s.pools.set i new,ledger⟩ : Pools).size j ptr =
      if j = i then new.bind (·.chunk_sizes_.lookup ptr) else s.size j ptr := by
  simp only [Pools.size,Pools.pool,pool_set found]
  split <;> rfl

theorem Agrees.grant {s : Pools} {i : Nat} {pool : MemPool} (agrees : s.Agrees) (found : s.pool i = some pool)
    (addr : Ptr) (fresh : s.Fresh addr) (size : UInt64) (tracker : MemTracker)
    (counted : tracker.current_size_ = UInt64.ofNat (s.bytes + size.toNat)) :
    Agrees ⟨tracker,s.pools.set i (some ⟨pool.chunk_sizes_.insert addr size⟩),s.record i addr size⟩ := by
  have unknown : addr ∉ pool.chunk_sizes_ := by
    have none := fresh.2 i
    rw [Pools.size,found] at none
    exact AList.lookup_eq_none.mp none
  refine ⟨?_,fun j ptr other => ?_,?_⟩
  · have grown := bytes_set s.pools i pool (some ⟨pool.chunk_sizes_.insert addr size⟩) found
    simp only [Option.elim_some,Chunks.bytes_insert size pool.chunk_sizes_ addr unknown] at grown
    rw [counted]
    apply congrArg UInt64.ofNat
    simp only [Pools.bytes]
    omega
  · simp only [size_set found,record]
    by_cases same : ptr = addr
    · subst same
      rw [Function.update_self]
      by_cases own : j = i
      · subst own
        simp
      · simp [own,fresh.2 j,Ne.symm own]
    · rw [Function.update_of_ne same,← agrees.ledger]
      by_cases own : j = i
      · subst own
        simp only [if_true,Option.bind_some,AList.lookup_insert_ne same,Pools.size,found]
      · rw [if_neg own]
  · exact (Function.update_of_ne (Ne.symm fresh.1) _ _).trans agrees.nonnull

theorem free_unowned (s : Pools) (i : Nat) (ptr : Ptr) (agrees : s.Agrees) (unowned : s.size i ptr = none) :
    s.call (.free i ptr) = s := by
  cases found : s.pool i with
  | none => simp only [call,found]
  | some pool =>
    have missing : pool.chunk_sizes_.lookup ptr = none := by
      rw [Pools.size,found] at unowned
      exact unowned
    have other : (s.requested ptr).map Prod.fst ≠ some i := by
      intro own
      obtain ⟨⟨j,size⟩,asked,rfl⟩ := Option.map_eq_some_iff.mp own
      rw [(agrees.ledger j ptr size).mpr asked] at unowned
      cases unowned
    simp only [call,found,MemPool.Free,missing,set_same found,if_neg other]

theorem Agrees.free {s : Pools} {i : Nat} {ptr : Ptr} {size : UInt64} (agrees : s.Agrees)
    (owned : s.size i ptr = some size) : (s.call (.free i ptr)).Agrees := by
  obtain ⟨pool,found,entry⟩ := Option.bind_eq_some_iff.mp owned
  have asked := (agrees.ledger i ptr size).mp owned
  have smaller := bytes_set s.pools i pool (some ⟨pool.chunk_sizes_.erase ptr⟩) found
  rw [Chunks.bytes_erase size pool.chunk_sizes_ ptr entry] at smaller
  simp only [Option.elim_some] at smaller
  simp only [call,found,MemPool.Free,entry,asked,Option.map_some,if_true]
  refine ⟨Release_counts size ?_,fun j other size' => ?_,?_⟩
  · rw [agrees.tracked]
    apply congrArg UInt64.ofNat
    simp only [Pools.bytes]
    omega
  · simp only [size_set found]
    by_cases same : other = ptr
    · subst same
      rw [Function.update_self]
      by_cases own : j = i
      · simp [own,AList.lookup_erase]
      · rw [if_neg own,agrees.ledger,asked]
        simp [Ne.symm own]
    · rw [Function.update_of_ne same,← agrees.ledger]
      by_cases own : j = i
      · subst own
        simp only [if_true,Option.bind_some,AList.lookup_erase_ne same,Pools.size,found]
      · rw [if_neg own]
  · by_cases null : nullptr = ptr
    · simp only [← null,Function.update_self]
    · simp only [Function.update_of_ne null,agrees.nonnull]

theorem Agrees.destroy {s : Pools} {i : Nat} {pool : MemPool} (agrees : s.Agrees) (found : s.pool i = some pool) :
    (s.call (.destroy i)).Agrees := by
  have smaller := bytes_set s.pools i pool none found
  simp only [Option.elim_none,Nat.add_zero] at smaller
  simp only [call,found]
  refine ⟨pool.destroy_counts (agrees.tracked.trans (congrArg UInt64.ofNat smaller.symm)),fun j ptr size => ?_,?_⟩
  · simp only [size_set found,Option.filter_eq_some_iff,← agrees.ledger]
    by_cases own : j = i
    · simp [own]
    · simp [own]
  · simp only [agrees.nonnull,Option.filter_none]

theorem Agrees.create {s : Pools} (agrees : s.Agrees) : (s.call .create).Agrees := by
  have same (j : Nat) (ptr : Ptr) : (s.call .create).size j ptr = s.size j ptr := by
    simp only [call,Pools.size,Pools.pool,List.getD_eq_getElem?_getD,List.getElem?_append]
    split
    · rfl
    · rename_i outside
      rw [List.getElem?_eq_none (Nat.le_of_not_lt outside)]
      cases j - s.pools.length <;> rfl
  refine ⟨?_,fun j ptr size => ?_,agrees.nonnull⟩
  · have bytes : (s.call .create).bytes = s.bytes := by
      simp [call,Pools.bytes,Chunks.bytes]
    rw [bytes]
    exact agrees.tracked
  · rw [same]
    exact agrees.ledger j ptr size

theorem call_allocate {s : Pools} {i : Nat} {pool : MemPool} (found : s.pool i = some pool) (size : UInt64)
    (addr : Ptr) : s.call (.allocate i size addr) =
      ⟨s.mem_tracker_.Consume size,s.pools.set i (some ⟨pool.chunk_sizes_.insert addr size⟩),s.record i addr size⟩ := by
  simp only [call,found,MemPool.Allocate]

theorem TryConsume_within (s : Pools) (size : UInt64) : s.mem_tracker_.TryConsume size =
    if s.Within size then (true,s.mem_tracker_.Consume size) else (false,s.mem_tracker_) := by
  by_cases within : s.Within size
  · rw [if_pos within]
    exact if_neg (UInt64.not_lt.mpr within)
  · rw [if_neg within]
    exact if_pos (UInt64.not_le.mp within)

/-- A request within the limit does what `Allocate` does, any other does nothing. -/
theorem call_tryAllocate (s : Pools) (i : Nat) (size : UInt64) (addr : Ptr) :
    s.call (.tryAllocate i size addr) = if s.Within size then s.call (.allocate i size addr) else s := by
  cases found : s.pool i with
  | none => simp only [call,found,ite_self]
  | some pool =>
    by_cases within : s.Within size
    · simp only [call,found,MemPool.TryAllocate,MemPool.Allocate,TryConsume_within,if_pos within]
    · simp only [call,found,MemPool.TryAllocate,TryConsume_within,if_neg within,set_same found]

/-- The pool that serves a request holds the address it returns, with the size asked for. -/
theorem allocate_serves {s : Pools} {i : Nat} {pool : MemPool} (found : s.pool i = some pool) (size : UInt64)
    (addr : Ptr) : (pool.Allocate s.mem_tracker_ size addr).1 = addr ∧
      (s.call (.allocate i size addr)).size i addr = some size := by
  refine ⟨rfl,?_⟩
  rw [call_allocate found,size_set found,if_pos rfl]
  exact AList.lookup_insert _

theorem tryAllocate_serves {s : Pools} {i : Nat} {pool : MemPool} (found : s.pool i = some pool) (size : UInt64)
    (addr : Ptr) (fresh : s.Fresh addr) :
    (pool.TryAllocate s.mem_tracker_ size addr).1 = (if s.Within size then addr else nullptr) ∧
      (s.call (.tryAllocate i size addr)).size i addr = if s.Within size then some size else none := by
  rw [call_tryAllocate]
  by_cases within : s.Within size
  · simp only [MemPool.TryAllocate,TryConsume_within,if_pos within,true_and]
    exact (allocate_serves found size addr).2
  · simp only [MemPool.TryAllocate,TryConsume_within,if_neg within,fresh.2 i,and_self]

/-- Every legal call keeps the pools, the tracker and the ledger in agreement. -/
theorem Agrees.call (s : Pools) (op : PoolsCall) (agrees : s.Agrees) (legal : Legal s op) : (s.call op).Agrees := by
  cases op with
  | create => exact agrees.create
  | tryAllocate i size addr =>
    obtain ⟨alive,fresh⟩ := legal
    obtain ⟨pool,found⟩ := Option.isSome_iff_exists.mp alive
    rw [call_tryAllocate]
    split
    · rw [call_allocate found]
      exact agrees.grant found addr fresh size _ (Consume_counts size agrees.tracked)
    · exact agrees
  | allocate i size addr =>
    obtain ⟨alive,fresh⟩ := legal
    obtain ⟨pool,found⟩ := Option.isSome_iff_exists.mp alive
    rw [call_allocate found]
    exact agrees.grant found addr fresh size _ (Consume_counts size agrees.tracked)
  | free i ptr =>
    cases entry : s.size i ptr with
    | none =>
      rw [free_unowned s i ptr agrees entry]
      exact agrees
    | some size => exact agrees.free entry
  | destroy i =>
    obtain ⟨pool,found⟩ := Option.isSome_iff_exists.mp legal
    exact agrees.destroy found

theorem agrees_start (max_size : UInt64) : (start max_size).Agrees :=
  ⟨rfl,fun i ptr size => by simp [start,Pools.size,Pools.pool],rfl⟩

theorem bytes_none (s : Pools) (gone : ∀ i, s.pool i = none) : s.bytes = 0 := by
  have empty : ∀ p ∈ s.pools, p = none := by
    intro p member
    obtain ⟨i,inside,rfl⟩ := List.mem_iff_getElem.mp member
    have none := gone i
    rwa [Pools.pool,List.getD_eq_getElem?_getD,List.getElem?_eq_getElem inside,Option.getD_some] at none
  apply List.sum_eq_zero
  intro n member
  obtain ⟨p,inside,rfl⟩ := List.mem_map.mp member
  rw [empty p inside]
  rfl

/-- The pool of the program is the only one of its tracker. -/
def ofArena (a : Arena) (requested : Ptr → Option (Nat × UInt64)) : Pools :=
  ⟨a.mem_tracker_,[some a.mem_pool_],requested⟩

theorem ofArena_calls (env : Platform) (a : Arena) (s : Pools) (requested : Ptr → Option (Nat × UInt64))
    (same : s = ofArena a requested) (size : UInt64) (ptr : Ptr) :
    (∃ ledger, s.call (.tryAllocate 0 size (a.address env size)) = ofArena (a.TryAllocate env size).2 ledger) ∧
    (∃ ledger, s.call (.allocate 0 size (a.address env size)) = ofArena (a.Allocate env size).2 ledger) ∧
    ∃ ledger, s.call (.free 0 ptr) = ofArena (a.Free ptr) ledger := by
  subst same
  exact ⟨⟨_,rfl⟩,⟨_,rfl⟩,⟨_,rfl⟩⟩

end Pools

open Pools

/-- Tracker and pools agree over every history, and with the ledger. A request that is
served stands in the map of its pool. -/
theorem pools_agree (max_size : UInt64) (calls : List PoolsCall)
    (legal : Along Pools.call Legal (start max_size) calls) (s : Pools)
    (reached : s = run Pools.call (start max_size) calls) :
    s.mem_tracker_.current_size_.toNat = s.bytes % 2^64 ∧
    (∀ i ptr size, s.size i ptr = some size ↔ s.requested ptr = some (i,size)) ∧
    (∀ i pool size addr, s.pool i = some pool → s.Fresh addr →
      ((pool.Allocate s.mem_tracker_ size addr).1 = addr ∧
        (s.call (.allocate i size addr)).size i addr = some size) ∧
      (pool.TryAllocate s.mem_tracker_ size addr).1 = (if s.Within size then addr else nullptr) ∧
        (s.call (.tryAllocate i size addr)).size i addr = if s.Within size then some size else none) ∧
    (∀ i ptr, s.size i ptr = none → s.call (.free i ptr) = s) ∧
    ((∀ i, s.pool i = none) → s.mem_tracker_.current_size_ = 0) := by
  have agrees : s.Agrees :=
    reached ▸ run_invariant Agrees Agrees.call (start max_size) (agrees_start max_size) calls legal
  refine ⟨?_,agrees.ledger,fun i pool size addr found fresh =>
    ⟨allocate_serves found size addr,tryAllocate_serves found size addr fresh⟩,
    fun i ptr => free_unowned s i ptr agrees,fun gone => ?_⟩
  · rw [agrees.tracked]
    exact UInt64.toNat_ofNat'
  · rw [agrees.tracked,bytes_none s gone]
    rfl

/-- Two pools: an address of the second is freed in the first, then in its own, comes
back, and at last both pools are destroyed. -/
theorem pools_agree_two : ∃ s, s = run Pools.call (start 100) [.create,.create,.tryAllocate 1 60 7,
      .tryAllocate 0 60 8,.allocate 0 60 9,.free 0 7,.free 1 7,.free 1 0,.tryAllocate 0 40 7,.destroy 0,.destroy 1] ∧
    s.mem_tracker_.current_size_ = 0 := by
  refine ⟨_,rfl,(pools_agree 100 _ (by decide) _ rfl).2.2.2.2 fun i => ?_⟩
  rcases i with _ | _ | i
  · rfl
  · rfl
  · rfl

end TopNFreq
