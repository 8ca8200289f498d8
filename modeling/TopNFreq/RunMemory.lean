import TopNFreq.RunRefinement

/-! The pool through whole runs, also through those that fail: the strings that the
program refers to own its chunks, and the destructors release the rest. -/
namespace TopNFreq
open Library.Text Library.InputStream Library.Loop IStream

namespace Arena
variable {a : Arena} {urls others : List StringVal}

/-- The chunks are those of `strings`, no `Free` has missed, and one URL fits. -/
structure Keeps (a : Arena) (strings : List StringVal) : Prop where
  owns : a.Owns strings
  hits : a.FreesHit
  room : 1024 ≤ a.mem_tracker_.max_size_.toNat

theorem Keeps.perm (keeps : a.Keeps urls) (same : urls.Perm others) : a.Keeps others :=
  ⟨keeps.owns.perm same,keeps.hits,keeps.room⟩

theorem Keeps.freeAll (keeps : a.Keeps (urls ++ others)) :
    (urls.foldl (fun arena url => arena.Free url.ptr) a).Keeps others := by
  induction urls generalizing a with
  | nil => exact keeps
  | cons url rest ih =>
    apply ih
    refine ⟨(keeps.owns.free (List.Perm.refl _)).1,keeps.hits.free keeps.owns url (by simp),?_⟩
    rw [Free_max]
    exact keeps.room

variable (env : Platform)

theorem FreesHit.tryAllocate (hits : a.FreesHit) (size : UInt64) : (a.TryAllocate env size).2.FreesHit := by
  intro call member
  rw [TryAllocate_calls] at member
  rcases List.mem_cons.mp member with rfl | old
  · exact trivial
  · exact hits call old

theorem Keeps.refused (keeps : a.Keeps urls) (size : UInt64) (null : (a.TryAllocate env size).1 = nullptr) :
    (a.TryAllocate env size).2.Keeps urls :=
  ⟨(keeps.owns.refused env size null).1,keeps.hits.tryAllocate env size,by
    rw [TryAllocate_max]
    exact keeps.room⟩

theorem Keeps.granted (keeps : a.Keeps urls) (text : Bytes) (bound : 1 ≤ text.length ∧ text.length < MAX_URL_LEN)
    (given : (a.TryAllocate env (UInt64.ofNat text.length)).1 ≠ nullptr) :
    ((a.TryAllocate env (UInt64.ofNat text.length)).2.memcpy (a.TryAllocate env (UInt64.ofNat text.length)).1
      text).Keeps (urls ++ [⟨(a.TryAllocate env (UInt64.ofNat text.length)).1,text.length⟩]) := by
  have owns := (keeps.owns.tryAllocate env text bound _ _ rfl given).1
  refine ⟨owns.perm (List.perm_append_singleton _ _).symm,keeps.hits.tryAllocate env (UInt64.ofNat text.length),?_⟩
  change 1024 ≤ (a.TryAllocate env (UInt64.ofNat text.length)).2.mem_tracker_.max_size_.toNat
  rw [TryAllocate_max]
  exact keeps.room

end Arena

namespace TopNFreqUrls
variable (env : Env)

/-- The batch that is in the pool when the first stage returns. -/
def pending (self : TopNFreqUrls) : List StringVal :=
  match self.file_mgr_.Open env self.disk with
  | (false,_) => []
  | (true,file_mgr_) =>
    let s := PartialSort.head env {self with file_mgr_} (file_mgr_.in_.after.length + 1)
    if s.status = .failed then s.urls
    else if s.urls.isEmpty then []
    else (s.self.AggregateAndSpillToDisk env s.urls).2.2

variable {env} {disk : Disk} {file : Bytes} {num_results : Int32} {mem_limit : UInt64} {spilled : TopNFreqUrls}

theorem merger_of_passed (low : 1024 ≤ mem_limit.toNat)
    (passed : (TopNFreqUrls.new file num_results mem_limit disk).PartialSort env = (true,spilled)) :
    spilled.file_merger_ = .new file := by
  cases present : disk file with
  | none => simp [PartialSort,FileManager.Open,TopNFreqUrls.new,FileManager.new,present] at passed
  | some content =>
    obtain ⟨_,_,batching⟩ := passed_batches present low passed
    exact batching.file_merger_

end TopNFreqUrls

open TopNFreqUrls

/-- The disk is full: no row can be written. -/
def Env.diskFull : Env := {Env.reference with faults := {Faults.none with writeRow := fun _ => true}}

end TopNFreq
