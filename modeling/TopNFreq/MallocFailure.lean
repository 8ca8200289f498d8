import TopNFreq.MemPool
import TopNFreq.Library.History

/-! What a failed `TryAllocate` leaves behind. `malloc` may return null when the
system is out of memory; `TryAllocate` does not look at that: the request stays
consumed, and null becomes a key of the map. -/
namespace TopNFreq
open Library.History

inductive RequestCall
  | tryAllocate (size : UInt64) (addr : Ptr)
  | free (ptr : Ptr)

/-- A pool with its tracker. `returned` lists the pointers that `TryAllocate` has
returned, `unfreed` those of its chunks that have not been freed; no code reads them. -/
structure Requests where
  mem_tracker_ : MemTracker
  mem_pool_ : MemPool
  returned : List Ptr
  unfreed : List Ptr

namespace Requests

def start (mem_tracker_ : MemTracker) (mem_pool_ : MemPool) : Requests := ⟨mem_tracker_,mem_pool_,[],[]⟩

def lookup (s : Requests) (ptr : Ptr) : Option UInt64 := s.mem_pool_.chunk_sizes_.lookup ptr

def call (s : Requests) : RequestCall → Requests
  | .tryAllocate size addr =>
    let (ptr,mem_tracker_,mem_pool_) := s.mem_pool_.TryAllocate s.mem_tracker_ size addr
    ⟨mem_tracker_,mem_pool_,ptr :: s.returned,if ptr = nullptr then s.unfreed else ptr :: s.unfreed⟩
  | .free ptr =>
    let (mem_tracker_,mem_pool_) := s.mem_pool_.Free s.mem_tracker_ ptr
    ⟨mem_tracker_,mem_pool_,s.returned,s.unfreed.filter (· ≠ ptr)⟩

/-- `malloc` returns null or an address that is not live; what is freed has been returned. -/
def Legal (s : Requests) : RequestCall → Prop
  | .tryAllocate _ addr => addr = nullptr ∨ s.lookup addr = none
  | .free ptr => ptr ∈ s.returned

/-- A request that fails changes neither the tracker nor the map, and freeing the
null pointer that it returns does not either. -/
def Traceless (s : Requests) (op : RequestCall) : Prop :=
  (match op with
    | .tryAllocate size addr => (s.mem_pool_.TryAllocate s.mem_tracker_ size addr).1 = nullptr
    | .free ptr => ptr = nullptr) →
  (s.call op).mem_tracker_.current_size_ = s.mem_tracker_.current_size_ ∧
    ∀ ptr, (s.call op).lookup ptr = s.lookup ptr

/-- The tracker refuses the request, or `malloc` has memory for it, or the request is
for no bytes and has failed before; and null is freed when it is no key of the map. -/
def Clean (s : Requests) : RequestCall → Prop
  | .tryAllocate size addr => (s.mem_tracker_.TryConsume size).1 = false ∨ addr ≠ nullptr ∨
      size = 0 ∧ s.lookup nullptr = some 0
  | .free ptr => ptr = nullptr → s.lookup nullptr = none

instance (s : Requests) : (op : RequestCall) → Decidable (Legal s op)
  | .tryAllocate _ _ => inferInstanceAs (Decidable (_ ∨ _))
  | .free ptr => inferInstanceAs (Decidable (ptr ∈ s.returned))

instance (s : Requests) : (op : RequestCall) → Decidable (Clean s op)
  | .tryAllocate _ _ => inferInstanceAs (Decidable (_ ∨ _))
  | .free ptr => inferInstanceAs (Decidable (ptr = nullptr → s.lookup nullptr = none))

theorem TryAllocate_refused (s : Requests) (size : UInt64) (addr : Ptr)
    (refused : (s.mem_tracker_.TryConsume size).1 = false) :
    s.call (.tryAllocate size addr) = {s with returned := nullptr :: s.returned} ∧
      (s.mem_pool_.TryAllocate s.mem_tracker_ size addr).1 = nullptr := by
  have same := TryConsume_refused size refused
  rcases consumed : s.mem_tracker_.TryConsume size with ⟨_ | _,tracker⟩
  · rw [consumed] at same
    obtain rfl : tracker = s.mem_tracker_ := same
    simp only [call,MemPool.TryAllocate,consumed,if_true,and_self]
  · rw [consumed] at refused
    cases refused

theorem TryAllocate_granted (s : Requests) (size : UInt64) (addr : Ptr)
    (granted : (s.mem_tracker_.TryConsume size).1 = true) :
    s.call (.tryAllocate size addr) = ⟨s.mem_tracker_.Consume size,⟨s.mem_pool_.chunk_sizes_.insert addr size⟩,
        addr :: s.returned,if addr = nullptr then s.unfreed else addr :: s.unfreed⟩ ∧
      (s.mem_pool_.TryAllocate s.mem_tracker_ size addr).1 = addr := by
  have grown := TryConsume_granted size granted
  rcases consumed : s.mem_tracker_.TryConsume size with ⟨_ | _,tracker⟩
  · rw [consumed] at granted
    cases granted
  · rw [consumed] at grown
    obtain rfl : tracker = s.mem_tracker_.Consume size := grown
    simp only [call,MemPool.TryAllocate,consumed,and_self]

theorem free_missing (s : Requests) (ptr : Ptr) (missing : s.lookup ptr = none) :
    s.call (.free ptr) = {s with unfreed := s.unfreed.filter (· ≠ ptr)} := by
  simp only [call,MemPool.Free,show s.mem_pool_.chunk_sizes_.lookup ptr = none from missing]

theorem free_found (s : Requests) (ptr : Ptr) (size : UInt64) (found : s.lookup ptr = some size) :
    s.call (.free ptr) = ⟨s.mem_tracker_.Release size,⟨s.mem_pool_.chunk_sizes_.erase ptr⟩,s.returned,
      s.unfreed.filter (· ≠ ptr)⟩ := by
  simp only [call,MemPool.Free,show s.mem_pool_.chunk_sizes_.lookup ptr = some size from found]

/-- Exactly a request that the limit admits and `malloc` does not grant leaves a trace. -/
theorem traceless_iff (s : Requests) (op : RequestCall) : Traceless s op ↔ Clean s op := by
  cases op with
  | tryAllocate size addr =>
    cases admitted : (s.mem_tracker_.TryConsume size).1 with
    | false =>
      obtain ⟨same,_⟩ := TryAllocate_refused s size addr admitted
      simp only [Traceless,Clean,same,admitted,true_or,iff_true]
      exact fun _ => ⟨trivial,fun _ => rfl⟩
    | true =>
      obtain ⟨same,answer⟩ := TryAllocate_granted s size addr admitted
      simp only [Traceless,Clean,same,answer,admitted,Bool.true_eq_false,false_or]
      by_cases null : addr = nullptr
      · subst null
        simp only [true_imp_iff,ne_eq,not_true_eq_false,false_or]
        constructor
        · rintro ⟨current,chunks⟩
          have none : size = 0 := by
            simpa [MemTracker.Consume] using current
          refine ⟨none,(chunks nullptr).symm.trans ?_⟩
          rw [← none]
          exact AList.lookup_insert _
        · rintro ⟨rfl,known⟩
          refine ⟨by simp [MemTracker.Consume],fun ptr => ?_⟩
          by_cases key : ptr = nullptr
          · subst key
            exact (AList.lookup_insert _).trans known.symm
          · exact AList.lookup_insert_ne key
      · simp [null]
  | free ptr =>
    simp only [Traceless,Clean]
    refine forall_congr' fun null => ?_
    subst null
    cases entry : s.lookup nullptr with
    | none =>
      rw [free_missing s _ entry]
      exact iff_of_true ⟨rfl,fun _ => rfl⟩ rfl
    | some size =>
      rw [free_found s _ size entry]
      refine iff_of_false (fun same => ?_) (by simp)
      have gone := same.2 nullptr
      rw [entry] at gone
      exact absurd ((AList.lookup_erase _ _).symm.trans gone) (by simp)

/-- The pool holds what it held at first and the chunks that have not been freed, and
the tracker has counted the difference. -/
structure Balanced (first s : Requests) : Prop where
  balance : ∃ rest, first.mem_tracker_.current_size_ = UInt64.ofNat (rest + first.mem_pool_.chunk_sizes_.bytes) ∧
    s.mem_tracker_.current_size_ = UInt64.ofNat (rest + s.mem_pool_.chunk_sizes_.bytes)
  same : ∀ ptr, ptr ∉ s.unfreed → s.lookup ptr = first.lookup ptr
  fresh : ∀ ptr ∈ s.returned, ptr ≠ nullptr → first.lookup ptr = none
  returned : ∀ ptr ∈ s.unfreed, ptr ∈ s.returned ∧ ptr ≠ nullptr

theorem bytes_known (chunks : Chunks) (ptr : Ptr) (size : UInt64) (known : chunks.lookup ptr = some size) :
    Chunks.bytes (chunks.insert ptr size) = chunks.bytes := by
  have same : (chunks.insert ptr size).entries.Perm chunks.entries := by
    refine List.lookup_ext (AList.nodupKeys _) (AList.nodupKeys _) fun other value => ?_
    change value ∈ (chunks.insert ptr size).lookup other ↔ value ∈ chunks.lookup other
    by_cases key : other = ptr
    · rw [key,AList.lookup_insert,known]
    · rw [AList.lookup_insert_ne key]
  exact (same.map _).sum_eq

theorem Balanced.request {first s : Requests} (balanced : Balanced first s) (size : UInt64) (addr : Ptr)
    (fresh : addr = nullptr ∨ s.lookup addr = none) (clean : Clean s (.tryAllocate size addr)) :
    Balanced first (s.call (.tryAllocate size addr)) := by
  cases admitted : (s.mem_tracker_.TryConsume size).1 with
  | false =>
    rw [(TryAllocate_refused s size addr admitted).1]
    refine ⟨balanced.balance,balanced.same,fun ptr member nonnull => ?_,fun ptr member => ?_⟩
    · exact balanced.fresh ptr ((List.mem_cons.mp member).resolve_left nonnull) nonnull
    · exact ⟨List.mem_cons_of_mem _ (balanced.returned ptr member).1,(balanced.returned ptr member).2⟩
  | true =>
    rw [(TryAllocate_granted s size addr admitted).1]
    by_cases null : addr = nullptr
    · subst null
      simp only [Clean,admitted,Bool.true_eq_false,ne_eq,not_true_eq_false,false_or] at clean
      obtain ⟨rfl,known⟩ := clean
      rw [if_pos rfl]
      refine ⟨?_,fun ptr later => ?_,fun ptr member nonnull => ?_,fun ptr member => ?_⟩
      · simp only [MemTracker.Consume,UInt64.add_zero,bytes_known _ _ _ known]
        exact balanced.balance
      · rw [← balanced.same ptr later]
        by_cases key : ptr = nullptr
        · subst key
          exact (AList.lookup_insert _).trans known.symm
        · exact AList.lookup_insert_ne key
      · exact balanced.fresh ptr ((List.mem_cons.mp member).resolve_left nonnull) nonnull
      · exact ⟨List.mem_cons_of_mem _ (balanced.returned ptr member).1,(balanced.returned ptr member).2⟩
    · have unknown := fresh.resolve_left null
      rw [if_neg null]
      refine ⟨?_,fun ptr later => ?_,fun ptr member nonnull => ?_,fun ptr member => ?_⟩
      · obtain ⟨rest,before,now⟩ := balanced.balance
        refine ⟨rest,before,?_⟩
        rw [Chunks.bytes_insert size s.mem_pool_.chunk_sizes_ addr (AList.lookup_eq_none.mp unknown),← Nat.add_assoc]
        exact Consume_counts size now
      · obtain ⟨other,before⟩ := List.mem_cons.not.mp later |> not_or.mp
        rw [← balanced.same ptr before]
        exact AList.lookup_insert_ne other
      · rcases List.mem_cons.mp member with rfl | old
        · by_cases unfreed : ptr ∈ s.unfreed
          · exact balanced.fresh ptr (balanced.returned ptr unfreed).1 nonnull
          · rw [← balanced.same ptr unfreed]
            exact unknown
        · exact balanced.fresh ptr old nonnull
      · rcases List.mem_cons.mp member with rfl | old
        · exact ⟨List.mem_cons_self,null⟩
        · exact ⟨List.mem_cons_of_mem _ (balanced.returned ptr old).1,(balanced.returned ptr old).2⟩

theorem Balanced.free {first s : Requests} (balanced : Balanced first s) (ptr : Ptr) (given : ptr ∈ s.returned)
    (clean : Clean s (.free ptr)) : Balanced first (s.call (.free ptr)) := by
  have back (nonnull : ptr ≠ nullptr) : first.lookup ptr = none := balanced.fresh ptr given nonnull
  cases entry : s.lookup ptr with
  | none =>
    rw [free_missing s ptr entry]
    refine ⟨balanced.balance,fun other freed => ?_,balanced.fresh,fun other member => ?_⟩
    · by_cases unfreed : other ∈ s.unfreed
      · obtain rfl : other = ptr := by
          by_contra different
          exact freed (List.mem_filter.mpr ⟨unfreed,by simpa using different⟩)
        rw [back (balanced.returned other unfreed).2]
        exact entry
      · exact balanced.same other unfreed
    · exact balanced.returned other (List.mem_filter.mp member).1
  | some size =>
    have nonnull : ptr ≠ nullptr := by
      rintro rfl
      rw [clean rfl] at entry
      cases entry
    rw [free_found s ptr size entry]
    refine ⟨?_,fun other freed => ?_,balanced.fresh,fun other member => ?_⟩
    · obtain ⟨rest,before,now⟩ := balanced.balance
      refine ⟨rest,before,Release_counts size ?_⟩
      rw [now,Chunks.bytes_erase size s.mem_pool_.chunk_sizes_ ptr entry,Nat.add_assoc]
    · by_cases same : other = ptr
      · subst same
        rw [back nonnull]
        exact AList.lookup_erase _ _
      · have unfreed : other ∉ s.unfreed := fun member =>
          freed (List.mem_filter.mpr ⟨member,by simpa using same⟩)
        rw [← balanced.same other unfreed]
        exact AList.lookup_erase_ne same
    · exact balanced.returned other (List.mem_filter.mp member).1

theorem Balanced.settled {first s : Requests} (balanced : Balanced first s) (freed : s.unfreed = []) :
    s.mem_tracker_.current_size_ = first.mem_tracker_.current_size_ := by
  have same : s.mem_pool_.chunk_sizes_.entries.Perm first.mem_pool_.chunk_sizes_.entries := by
    refine List.lookup_ext (AList.nodupKeys _) (AList.nodupKeys _) fun ptr size => ?_
    change size ∈ s.lookup ptr ↔ size ∈ first.lookup ptr
    rw [balanced.same ptr (by simp [freed])]
  have bytes : s.mem_pool_.chunk_sizes_.bytes = first.mem_pool_.chunk_sizes_.bytes := (same.map _).sum_eq
  obtain ⟨rest,before,now⟩ := balanced.balance
  rw [before,now,bytes]

end Requests

open Requests

/-- Exactly in the histories of `TryAllocate`s and `Free`s whose calls are clean does no
failed request leave a trace, and the tracker is back at its start when everything that
was returned has been freed. -/
theorem failed_request_traceless (mem_tracker_ : MemTracker) (mem_pool_ : MemPool) (calls : List RequestCall)
    (legal : Along Requests.call Legal (start mem_tracker_ mem_pool_) calls) :
    (Along Requests.call Traceless (start mem_tracker_ mem_pool_) calls ∧
      ((run Requests.call (start mem_tracker_ mem_pool_) calls).unfreed = [] →
        (run Requests.call (start mem_tracker_ mem_pool_) calls).mem_tracker_.current_size_ =
          mem_tracker_.current_size_)) ↔
    Along Requests.call Clean (start mem_tracker_ mem_pool_) calls := by
  have same : Along Requests.call Traceless (start mem_tracker_ mem_pool_) calls ↔
      Along Requests.call Clean (start mem_tracker_ mem_pool_) calls :=
    along_congr (fun _ => True) (fun _ _ _ _ => trivial) (fun s op _ _ => traceless_iff s op) _ trivial calls legal
  rw [← same,and_iff_left_iff_imp]
  intro traceless freed
  have balanced : Balanced (start mem_tracker_ mem_pool_) (run Requests.call (start mem_tracker_ mem_pool_) calls) := by
    refine run_invariant _ (fun s op balanced legal => ?_) _ ?_ calls (legal.and (same.mp traceless))
    · cases op with
      | tryAllocate size addr => exact balanced.request size addr legal.1 legal.2
      | free ptr => exact balanced.free ptr legal.1 legal.2
    · refine ⟨⟨(mem_tracker_.current_size_ - UInt64.ofNat mem_pool_.chunk_sizes_.bytes).toNat,?_,?_⟩,
        fun _ _ => rfl,by simp [start],by simp [start]⟩
      all_goals rw [UInt64.ofNat_add,UInt64.ofNat_toNat,start,UInt64.sub_add_cancel]
  exact balanced.settled freed

/-- Two requests of 60 and 30 bytes that `malloc` does not grant: both return null, and
when that has been freed 60 bytes stay consumed. -/
theorem failed_request_trace :
    Along Requests.call Legal (start (.new 100) ⟨∅⟩) [.tryAllocate 60 nullptr,.tryAllocate 30 nullptr,.free nullptr] ∧
    ¬ Traceless (start (.new 100) ⟨∅⟩) (.tryAllocate 60 nullptr) ∧
    (run Requests.call (start (.new 100) ⟨∅⟩) [.tryAllocate 60 nullptr,.tryAllocate 30 nullptr,
      .free nullptr]).unfreed = [] ∧
    (run Requests.call (start (.new 100) ⟨∅⟩) [.tryAllocate 60 nullptr,.tryAllocate 30 nullptr,
      .free nullptr]).mem_tracker_.current_size_ = 60 := by
  refine ⟨by decide,fun traceless => ?_,rfl,by decide⟩
  exact absurd (traceless rfl).1 (by decide)

/-- A request over the limit fails, and its null pointer and the chunk are freed. -/
theorem failed_request_traceless_four :
    Along Requests.call Traceless (start (.new 100) ⟨∅⟩) [.tryAllocate 60 7,.tryAllocate 60 8,.free nullptr,.free 7] ∧
      ((run Requests.call (start (.new 100) ⟨∅⟩) [.tryAllocate 60 7,.tryAllocate 60 8,.free nullptr,
          .free 7]).unfreed = [] →
        (run Requests.call (start (.new 100) ⟨∅⟩) [.tryAllocate 60 7,.tryAllocate 60 8,.free nullptr,
          .free 7]).mem_tracker_.current_size_ = 0) :=
  (failed_request_traceless (.new 100) ⟨∅⟩ _ (by decide)).mpr (by decide)

end TopNFreq
