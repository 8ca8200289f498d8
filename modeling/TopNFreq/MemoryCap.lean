import TopNFreq.SpillResults

/-! The memory cap on the command line. It is converted to an unsigned number
before it is checked, so a negative one passes as almost 2^64 bytes. -/
namespace TopNFreq
open Library.Text TopNFreqUrls

/-- The bytes in the pool now and around every call made so far. -/
def Arena.occupancy (a : Arena) : List Nat :=
  a.chunks.bytes :: a.calls.flatMap fun call => [call.before.bytes,call.after.bytes]

theorem Arena.Capped.occupancy {a : Arena} {cap : Nat} (capped : a.Capped cap) :
    ∀ bytes ∈ a.occupancy, bytes ≤ cap := by
  intro bytes member
  rcases List.mem_cons.mp member with rfl | called
  · exact capped.bytes
  · obtain ⟨call,inside,around⟩ := List.mem_flatMap.mp called
    obtain ⟨before,after⟩ := capped.calls call inside
    simp only [List.mem_cons,List.not_mem_nil,or_false] at around
    rcases around with rfl | rfl
    · exact before
    · exact after

theorem memLimit_exact (mem_limit_in_mb : Int32) (positive : 0 < mem_limit_in_mb.toInt) :
    ((memLimit mem_limit_in_mb).toNat : Int) = mem_limit_in_mb.toInt * 2^20 := by
  have upper := mem_limit_in_mb.toInt_lt
  have fits : (mem_limit_in_mb.toInt * 1024 * 1024 % 2^64).toNat < UInt64.size := by
    simp only [UInt64.size]
    omega
  rw [memLimit,UInt64.ofInt,UInt64.toNat_ofNat_of_lt' fits]
  omega

theorem accepted_nonzero (num_results mem_limit_in_mb : Int32)
    (accepted : argumentsAccepted num_results mem_limit_in_mb = true) : mem_limit_in_mb.toInt ≠ 0 := by
  intro zero
  have none : memLimit mem_limit_in_mb = 0 := by
    rw [memLimit,zero]
    rfl
  simp [argumentsAccepted,none] at accepted

/-- For arguments that are accepted the cap is respected throughout the first
stage exactly when it is positive. -/
theorem memory_cap_respected (env : Env) (sound : SpillsSound env) (disk : Disk) (file content : Bytes)
    (present : disk file = some content) (num_results mem_limit_in_mb : Int32)
    (accepted : argumentsAccepted num_results mem_limit_in_mb = true) :
    (∀ bytes ∈ ((TopNFreqUrls.new file num_results (memLimit mem_limit_in_mb) disk).PartialSort
        env).2.arena.occupancy, (bytes : Int) ≤ mem_limit_in_mb.toInt * 2^20) ↔
      0 < mem_limit_in_mb.toInt := by
  constructor
  · intro capped
    have nonzero := accepted_nonzero num_results mem_limit_in_mb accepted
    have now := capped _ List.mem_cons_self
    omega
  · intro positive bytes member
    have exact := memLimit_exact mem_limit_in_mb positive
    have upper := mem_limit_in_mb.toInt_lt
    have low : 1024 ≤ (memLimit mem_limit_in_mb).toNat := by omega
    obtain ⟨_,batches,spilled,_,batching⟩ :=
      PartialSort_sound env disk file content num_results (memLimit mem_limit_in_mb) sound present low
    have narrow : (memLimit mem_limit_in_mb).toNat + MAX_URL_LEN ≤ 2^64 := by
      simp only [MAX_URL_LEN]
      omega
    rw [← exact]
    exact_mod_cast (batching.capped narrow).occupancy bytes member

/-- A cap of -1 megabyte is accepted, and then a chunk of one byte is granted. -/
theorem memory_cap_negative :
    argumentsAccepted 1 (-1) = true ∧ (memLimit (-1)).toNat = 2^64 - 2^20 ∧
    ¬ ∀ bytes ∈ ((TopNFreqUrls.new [105] 1 (memLimit (-1)) (oneFile [97,10])).PartialSort
      Env.reference).2.arena.occupancy, (bytes : Int) ≤ (-1 : Int32).toInt * 2^20 := by
  decide +kernel

theorem memory_cap_respected_one :
    (∀ bytes ∈ ((TopNFreqUrls.new [105] 10 (memLimit 1) (oneFile [97,10])).PartialSort
      Env.reference).2.arena.occupancy, (bytes : Int) ≤ (1 : Int32).toInt * 2^20) ↔ 0 < (1 : Int32).toInt :=
  memory_cap_respected Env.reference Env.reference_sound (oneFile [97,10]) [105] [97,10]
    (Function.update_self ..) 10 1 (by decide)

end TopNFreq
