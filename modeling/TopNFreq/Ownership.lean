import TopNFreq.FileManager
import TopNFreq.Comparators
import Mathlib.Algebra.BigOperators.Group.List.Basic

/-! Which strings own the chunks of the pool. Both stages keep the chunks equal
to the strings they still refer to; from that every request is tracked, every
`Free` hits a live chunk and no live string is overwritten. -/
namespace TopNFreq
open Library.Text

def StringVal.chunk (v : StringVal) : Sigma fun _ : Ptr => UInt64 := ⟨v.ptr,UInt64.ofNat v.len⟩

def StringVal.total (strings : List StringVal) : Nat := (strings.map StringVal.len).sum

namespace Arena
variable {a : Arena} {strings : List StringVal}

/-- The chunks of the pool are exactly those of `strings`, each holding a URL of
at most `MAX_URL_LEN - 1` bytes, and the tracker counts their lengths modulo 2^64. -/
structure Owns (a : Arena) (strings : List StringVal) : Prop where
  chunks : a.chunks.entries.Perm (strings.map StringVal.chunk)
  content : ∀ v ∈ strings, (a.memory v.ptr).length = v.len
  bounds : ∀ v ∈ strings, 1 ≤ v.len ∧ v.len < MAX_URL_LEN
  nonnull : ∀ v ∈ strings, v.ptr ≠ nullptr
  tracked : a.mem_tracker_.current_size_ = UInt64.ofNat (StringVal.total strings)

theorem Owns.empty (mem_limit : UInt64) : (Arena.new mem_limit).Owns [] :=
  ⟨List.Perm.refl _,by simp,by simp,by simp,rfl⟩

theorem Owns.perm {other : List StringVal} (owns : a.Owns strings) (same : strings.Perm other) :
    a.Owns other :=
  ⟨owns.chunks.trans (same.map _),fun v member => owns.content v (same.mem_iff.mpr member),
    fun v member => owns.bounds v (same.mem_iff.mpr member),
    fun v member => owns.nonnull v (same.mem_iff.mpr member),
    by rw [owns.tracked,StringVal.total,StringVal.total,(same.map _).sum_eq]⟩

theorem Owns.keys (owns : a.Owns strings) : a.chunks.keys.Perm (strings.map StringVal.ptr) := by
  have mapped := owns.chunks.map Sigma.fst
  rwa [List.map_map] at mapped

theorem Owns.nodup (owns : a.Owns strings) : (strings.map StringVal.ptr).Nodup :=
  owns.keys.nodup_iff.mp a.chunks.keys_nodup

theorem Owns.stored (owns : a.Owns strings) (v : StringVal) (member : v ∈ strings) : Stored a.memory v :=
  ⟨(owns.content v member).ge,lt_trans (owns.bounds v member).2 (by decide)⟩

theorem Owns.mem_chunks (owns : a.Owns strings) (v : StringVal) (member : v ∈ strings) :
    v.ptr ∈ a.chunks :=
  AList.mem_keys.mpr (owns.keys.mem_iff.mpr (List.mem_map_of_mem member))

theorem Owns.bytes (owns : a.Owns strings) : a.chunks.bytes = StringVal.total strings := by
  have narrow : ∀ v ∈ strings, (UInt64.ofNat v.len).toNat = v.len := by
    intro v member
    have short : v.len < 1025 := (owns.bounds v member).2
    exact UInt64.toNat_ofNat_of_lt' (short.trans (by decide))
  rw [Chunks.bytes,(owns.chunks.map _).sum_eq,List.map_map,StringVal.total]
  exact congrArg List.sum (List.map_congr_left narrow)

theorem Owns.insert (owns : a.Owns strings) (ptr : Ptr) (text : Bytes) (after : Arena)
    (fresh : ptr ∉ a.chunks.keys) (nonnull : ptr ≠ nullptr)
    (bound : 1 ≤ text.length ∧ text.length < MAX_URL_LEN)
    (chunks : after.chunks = a.chunks.insert ptr (UInt64.ofNat text.length))
    (tracker : after.mem_tracker_.current_size_ =
      a.mem_tracker_.current_size_ + UInt64.ofNat text.length)
    (memory : after.memory = Function.update a.memory ptr text) :
    after.Owns (⟨ptr,text.length⟩ :: strings) ∧
      (⟨ptr,text.length⟩ : StringVal).toString after.memory = text ∧
      ∀ v ∈ strings, after.memory v.ptr = a.memory v.ptr := by
  have apart : ∀ v ∈ strings, v.ptr ≠ ptr := by
    rintro v member rfl
    exact fresh (AList.mem_keys.mp (owns.mem_chunks v member))
  have kept : ∀ v ∈ strings, after.memory v.ptr = a.memory v.ptr := by
    intro v member
    rw [memory,Function.update_of_ne (apart v member)]
  have own : after.memory ptr = text := by rw [memory,Function.update_self]
  refine ⟨⟨?_,?_,?_,?_,?_⟩,by simp [StringVal.toString,own],kept⟩
  · rw [chunks,AList.entries_insert_of_notMem (fun member => fresh (AList.mem_keys.mp member))]
    exact owns.chunks.cons _
  · intro v member
    rcases List.mem_cons.mp member with rfl | old
    · exact congrArg List.length own
    · rw [kept v old]
      exact owns.content v old
  · intro v member
    rcases List.mem_cons.mp member with rfl | old
    · exact bound
    · exact owns.bounds v old
  · intro v member
    rcases List.mem_cons.mp member with rfl | old
    · exact nonnull
    · exact owns.nonnull v old
  · rw [tracker,owns.tracked,← UInt64.ofNat_add]
    simp only [StringVal.total,List.map_cons,List.sum_cons,Nat.add_comm]

/-- `Allocate` for a string and the copy into the chunk. -/
def deposit (env : Platform) (a : Arena) (text : Bytes) : StringVal × Arena :=
  let (ptr,granted) := a.Allocate env (UInt64.ofNat text.length)
  (⟨ptr,text.length⟩,granted.memcpy ptr text)

theorem Owns.deposit (env : Platform) (owns : a.Owns strings) (text : Bytes)
    (bound : 1 ≤ text.length ∧ text.length < MAX_URL_LEN) :
    (a.deposit env text).2.Owns ((a.deposit env text).1 :: strings) ∧
      (a.deposit env text).1.toString (a.deposit env text).2.memory = text ∧
      ∀ v ∈ strings, (a.deposit env text).2.memory v.ptr = a.memory v.ptr := by
  have fresh := env.malloc_fresh a.requests a.chunks.keys (UInt64.ofNat text.length)
  exact owns.insert _ text _ fresh.1 fresh.2 bound rfl rfl rfl

theorem deposit_toString (env : Platform) (a : Arena) (text : Bytes) :
    (a.deposit env text).1.toString (a.deposit env text).2.memory = text := by
  simp [Arena.deposit,StringVal.toString,memcpy,Allocate,MemPool.Allocate]

theorem TryAllocate_refused (env : Platform) (a : Arena) (size : UInt64)
    (refused : (a.mem_tracker_.TryConsume size).1 = false) :
    (a.TryAllocate env size).1 = nullptr ∧ (a.TryAllocate env size).2.chunks = a.chunks ∧
      (a.TryAllocate env size).2.mem_tracker_ = a.mem_tracker_ ∧
      (a.TryAllocate env size).2.memory = a.memory := by
  have beyond : a.mem_tracker_.current_size_ + size > a.mem_tracker_.max_size_ := by
    by_contra within
    simp [MemTracker.TryConsume,within] at refused
  simp [TryAllocate,MemPool.TryAllocate,MemTracker.TryConsume,beyond,Arena.chunks]

theorem TryAllocate_granted (env : Platform) (a : Arena) (size : UInt64)
    (granted : (a.mem_tracker_.TryConsume size).1 = true) :
    (a.TryAllocate env size).1 = a.address env size ∧
      (a.TryAllocate env size).2.chunks = a.chunks.insert (a.address env size) size ∧
      (a.TryAllocate env size).2.mem_tracker_ =
        ⟨a.mem_tracker_.max_size_,a.mem_tracker_.current_size_ + size⟩ ∧
      (a.TryAllocate env size).2.memory = a.memory := by
  have within : ¬ a.mem_tracker_.current_size_ + size > a.mem_tracker_.max_size_ := by
    intro beyond
    simp [MemTracker.TryConsume,beyond] at granted
  simp [TryAllocate,MemPool.TryAllocate,MemTracker.TryConsume,within,Arena.chunks]

theorem TryAllocate_null (env : Platform) (a : Arena) (size : UInt64) :
    (a.TryAllocate env size).1 = nullptr ↔ (a.mem_tracker_.TryConsume size).1 = false := by
  cases consumed : (a.mem_tracker_.TryConsume size).1 with
  | false => simp [(TryAllocate_refused env a size consumed).1]
  | true =>
    rw [(TryAllocate_granted env a size consumed).1]
    have given := (env.malloc_fresh a.requests a.chunks.keys size).2
    exact ⟨fun null => absurd null given,fun refused => by simp at refused⟩

theorem Owns.tryAllocate (env : Platform) (owns : a.Owns strings) (text : Bytes)
    (bound : 1 ≤ text.length ∧ text.length < MAX_URL_LEN) (ptr : Ptr) (granted : Arena)
    (call : a.TryAllocate env (UInt64.ofNat text.length) = (ptr,granted)) (given : ptr ≠ nullptr) :
    (granted.memcpy ptr text).Owns (⟨ptr,text.length⟩ :: strings) ∧
      (⟨ptr,text.length⟩ : StringVal).toString (granted.memcpy ptr text).memory = text ∧
      ∀ v ∈ strings, (granted.memcpy ptr text).memory v.ptr = a.memory v.ptr := by
  have consumed : (a.mem_tracker_.TryConsume (UInt64.ofNat text.length)).1 = true := by
    by_contra refused
    exact given (by
      rw [← (TryAllocate_null env a _).mpr (Bool.eq_false_iff.mpr refused),call])
  have fresh := env.malloc_fresh a.requests a.chunks.keys (UInt64.ofNat text.length)
  obtain ⟨address,chunks,tracker,memory⟩ := TryAllocate_granted env a (UInt64.ofNat text.length) consumed
  rw [call] at address chunks tracker memory
  dsimp only at address chunks tracker memory
  subst address
  exact owns.insert _ text _ fresh.1 fresh.2 bound chunks
    (congrArg MemTracker.current_size_ tracker) (by simp only [memcpy,memory])

theorem Owns.free {v : StringVal} {rest : List StringVal} (owns : a.Owns strings)
    (same : strings.Perm (v :: rest)) :
    (a.Free v.ptr).Owns rest ∧ ∀ w ∈ rest, (a.Free v.ptr).memory w.ptr = a.memory w.ptr := by
  have owned := owns.perm same
  have live : v.ptr ∈ a.chunks := owned.mem_chunks v (by simp)
  have entry : v.chunk ∈ a.chunks.entries := owned.chunks.mem_iff.mpr (by simp)
  have found : a.mem_pool_.chunk_sizes_.lookup v.ptr = some (UInt64.ofNat v.len) :=
    AList.mem_lookup_iff.mpr entry
  have nodup := owned.nodup
  simp only [List.map_cons,List.nodup_cons] at nodup
  have kept : ∀ w ∈ rest, (a.Free v.ptr).memory w.ptr = a.memory w.ptr := by
    intro w member
    have apart : w.ptr ≠ v.ptr := fun equal => nodup.1 (equal ▸ List.mem_map_of_mem member)
    simp only [Free,live,if_true,Function.update_of_ne apart]
  have chunks : (a.Free v.ptr).chunks = a.chunks.erase v.ptr := by
    simp only [Free,MemPool.Free,found,Arena.chunks]
  refine ⟨⟨?_,?_,?_,?_,?_⟩,kept⟩
  · rw [chunks]
    have erased := owned.chunks.kerase (a := v.ptr) a.chunks.nodupKeys
    have first : List.kerase v.ptr (v.chunk :: rest.map StringVal.chunk) = rest.map StringVal.chunk :=
      List.kerase_cons_eq rfl
    rwa [List.map_cons,first] at erased
  · intro w member
    rw [kept w member]
    exact owned.content w (by simp [member])
  · exact fun w member => owned.bounds w (by simp [member])
  · exact fun w member => owned.nonnull w (by simp [member])
  · have before := owned.tracked
    simp only [StringVal.total,List.map_cons,List.sum_cons] at before
    simp only [Free,MemPool.Free,found,MemTracker.Release,before,StringVal.total]
    rw [UInt64.ofNat_add,UInt64.add_comm,UInt64.add_sub_cancel]

theorem Owns.free_hits {v : StringVal} (owns : a.Owns strings) (member : v ∈ strings) :
    (a.Free v.ptr).calls = ⟨.free v.ptr,a.chunks,a.chunks.erase v.ptr⟩ :: a.calls ∧
      v.ptr ∈ a.chunks := by
  have entry : v.chunk ∈ a.chunks.entries :=
    owns.chunks.mem_iff.mpr (List.mem_map_of_mem member)
  have found : a.mem_pool_.chunk_sizes_.lookup v.ptr = some (UInt64.ofNat v.len) :=
    AList.mem_lookup_iff.mpr entry
  exact ⟨by simp only [Free,MemPool.Free,found,Arena.chunks],owns.mem_chunks v member⟩

end Arena
end TopNFreq
