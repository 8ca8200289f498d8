import TopNFreq.RunCount
import TopNFreq.UrlStream

/-! The first stage: the loop of `PartialSort` cuts the URLs of the input into
batches, and each batch becomes a spill file. -/
namespace TopNFreq
open Library.Text Library.InputStream Library.Loop

section Allocation
variable (env : Platform) {a : Arena} {strings : List StringVal}

theorem Arena.Owns.room (owns : a.Owns []) (len : Nat) (short : len < MAX_URL_LEN)
    (limit : 1024 ≤ a.mem_tracker_.max_size_.toNat) : (a.TryAllocate env (UInt64.ofNat len)).1 ≠ nullptr := by
  intro null
  have small : len < 1025 := short
  have refused := (Arena.TryAllocate_null env a (UInt64.ofNat len)).mp null
  have empty : a.mem_tracker_.current_size_ = 0 := owns.tracked
  have size : (UInt64.ofNat len).toNat = len := UInt64.toNat_ofNat_of_lt' (small.trans (by decide))
  simp only [MemTracker.TryConsume,empty,UInt64.zero_add] at refused
  split at refused
  · rename_i beyond
    have above := UInt64.lt_iff_toNat_lt.mp beyond
    omega
  · cases refused

theorem Arena.Owns.full_iff (owns : a.Owns strings) (len : Nat) :
    (a.TryAllocate env (UInt64.ofNat len)).1 = nullptr ↔ a.mem_tracker_.max_size_ <
      UInt64.ofNat ((strings.map (StringVal.toString a.memory)).flatten.length + len) := by
  have total : (strings.map (StringVal.toString a.memory)).flatten.length = StringVal.total strings := by
    rw [List.length_flatten,List.map_map,StringVal.total]
    apply congrArg List.sum
    apply List.map_congr_left
    exact fun v member => StringVal.length_toString _ v (owns.stored v member)
  rw [Arena.TryAllocate_null,total,UInt64.ofNat_add,← owns.tracked]
  unfold MemTracker.TryConsume
  split
  · rename_i beyond
    exact iff_of_true rfl beyond
  · rename_i within
    exact iff_of_false (by simp) within

theorem Arena.Owns.refused (owns : a.Owns strings) (size : UInt64)
    (null : (a.TryAllocate env size).1 = nullptr) :
    (a.TryAllocate env size).2.Owns strings ∧
      (a.TryAllocate env size).2.memory = a.memory := by
  have refused := (Arena.TryAllocate_null env a size).mp null
  obtain ⟨_,chunks,tracker,memory⟩ := Arena.TryAllocate_refused env a size refused
  refine ⟨⟨chunks ▸ owns.chunks,fun v member => ?_,owns.bounds,owns.nonnull,tracker ▸ owns.tracked⟩,memory⟩
  rw [memory]
  exact owns.content v member

theorem Arena.TryAllocate_calls (a : Arena) (size : UInt64) :
    (a.TryAllocate env size).2.calls =
      ⟨.tryAllocate size,a.chunks,(a.TryAllocate env size).2.chunks⟩ :: a.calls := rfl

theorem Arena.TryAllocate_max (a : Arena) (size : UInt64) :
    (a.TryAllocate env size).2.mem_tracker_.max_size_ = a.mem_tracker_.max_size_ := by
  cases consumed : (a.mem_tracker_.TryConsume size).1 with
  | false => rw [(Arena.TryAllocate_refused env a size consumed).2.2.1]
  | true => rw [(Arena.TryAllocate_granted env a size consumed).2.2.1]

theorem Arena.Free_max (a : Arena) (ptr : Ptr) :
    (a.Free ptr).mem_tracker_.max_size_ = a.mem_tracker_.max_size_ := by
  simp only [Arena.Free,MemPool.Free]
  cases a.mem_pool_.chunk_sizes_.lookup ptr <;> rfl

theorem freeAll_max (urls : List StringVal) (arena : Arena) :
    (urls.foldl (fun arena url => arena.Free url.ptr) arena).mem_tracker_.max_size_ =
      arena.mem_tracker_.max_size_ := by
  induction urls generalizing arena with
  | nil => rfl
  | cons url rest ih => exact (ih _).trans (Arena.Free_max arena url.ptr)

/-- Neither now nor at any call so far have there been more bytes in the pool than `cap`. -/
structure Arena.Capped (a : Arena) (cap : Nat) : Prop where
  bytes : a.chunks.bytes ≤ cap
  calls : ∀ call ∈ a.calls, call.before.bytes ≤ cap ∧ call.after.bytes ≤ cap

theorem Arena.Capped.refused {cap : Nat} (capped : a.Capped cap) (size : UInt64)
    (null : (a.TryAllocate env size).1 = nullptr) : (a.TryAllocate env size).2.Capped cap := by
  have same := (Arena.TryAllocate_refused env a size ((Arena.TryAllocate_null env a size).mp null)).2.1
  refine ⟨same ▸ capped.bytes,fun call member => ?_⟩
  rcases List.mem_cons.mp member with rfl | old
  · exact ⟨capped.bytes,same ▸ capped.bytes⟩
  · exact capped.calls call old

theorem Arena.Capped.granted {text : Bytes} {ptr : Ptr} {granted : Arena} (owns : a.Owns strings)
    (capped : a.Capped a.mem_tracker_.max_size_.toNat)
    (narrow : a.mem_tracker_.max_size_.toNat + MAX_URL_LEN ≤ 2^64)
    (bound : 1 ≤ text.length ∧ text.length < MAX_URL_LEN)
    (call : a.TryAllocate env (UInt64.ofNat text.length) = (ptr,granted)) (given : ptr ≠ nullptr) :
    (granted.memcpy ptr text).Capped a.mem_tracker_.max_size_.toNat := by
  obtain ⟨kept,_,_⟩ := owns.tryAllocate env text bound ptr granted call given
  have consumed : (a.mem_tracker_.TryConsume (UInt64.ofNat text.length)).1 = true := by
    by_contra refused
    exact given (by
      rw [← (Arena.TryAllocate_null env a _).mpr (Bool.eq_false_iff.mpr refused),call])
  have before := capped.bytes
  rw [owns.bytes] at before
  have small : text.length < 1025 := bound.2
  have large : a.mem_tracker_.max_size_.toNat + 1025 ≤ 2^64 := narrow
  -- The sum of the tracker is exact, so the comparison with the limit is too.
  have within : StringVal.total strings + text.length ≤ a.mem_tracker_.max_size_.toNat := by
    simp only [MemTracker.TryConsume,owns.tracked,← UInt64.ofNat_add] at consumed
    split at consumed
    · cases consumed
    · rename_i notOver
      have exact : (UInt64.ofNat (StringVal.total strings + text.length)).toNat =
          StringVal.total strings + text.length := UInt64.toNat_ofNat_of_lt' (by
        simp only [UInt64.size]
        omega)
      rw [gt_iff_lt,UInt64.lt_iff_toNat_lt,exact] at notOver
      omega
  have after : granted.chunks.bytes ≤ a.mem_tracker_.max_size_.toNat := by
    have bytes := kept.bytes
    simp only [StringVal.total,List.map_cons,List.sum_cons] at bytes within
    have same : (granted.memcpy ptr text).chunks = granted.chunks := rfl
    rw [same] at bytes
    omega
  have calls := Arena.TryAllocate_calls env a (UInt64.ofNat text.length)
  rw [call] at calls
  refine ⟨after,fun made member => ?_⟩
  rw [show (granted.memcpy ptr text).calls = granted.calls from rfl,calls] at member
  rcases List.mem_cons.mp member with rfl | old
  · exact ⟨capped.bytes,after⟩
  · exact capped.calls made old

theorem Arena.Capped.free {cap : Nat} {v : StringVal} {rest : List StringVal} (owns : a.Owns (v :: rest))
    (capped : a.Capped cap) : (a.Free v.ptr).Capped cap := by
  have after := (owns.free (List.Perm.refl _)).1.bytes
  have before := capped.bytes
  rw [owns.bytes] at before
  simp only [StringVal.total,List.map_cons,List.sum_cons] at before after
  have lower : (a.Free v.ptr).chunks.bytes ≤ cap := by omega
  have made := (owns.free_hits (List.mem_cons_self (a := v))).1
  refine ⟨lower,fun call member => ?_⟩
  have chunks : (a.Free v.ptr).chunks = a.chunks.erase v.ptr := by
    have first := congrArg (fun calls => calls.head?.map PoolCall.after) made
    simpa [Arena.Free,Arena.chunks] using first
  rw [made] at member
  rcases List.mem_cons.mp member with rfl | old
  · exact ⟨capped.bytes,chunks ▸ lower⟩
  · exact capped.calls call old

theorem capped_freeAll {cap : Nat} (urls : List StringVal) (arena : Arena) (owns : arena.Owns urls)
    (capped : arena.Capped cap) : (urls.foldl (fun arena url => arena.Free url.ptr) arena).Capped cap := by
  induction urls generalizing arena with
  | nil => exact capped
  | cons url rest ih => exact ih _ (owns.free (List.Perm.refl _)).1 (capped.free owns)

end Allocation

namespace TopNFreqUrls
variable (env : Env)

/-- A batch that has been spilled: `refused` is the state after the request that
did not fit, and `emptied` that after the spill. -/
structure Spill (refused emptied : TopNFreqUrls) (urls : List StringVal) (rows : List (Bytes × Int32)) : Prop where
  frame : SameButSpill refused emptied
  output_files_ : emptied.file_mgr_.output_files_ = refused.file_mgr_.output_files_ + 1
  disk : emptied.disk = Function.update refused.disk
    (FileManager.OutputFileName refused.file_mgr_.file_name_ refused.file_mgr_.output_files_)
    (some (rows.flatMap rowBytes))
  handed : emptied.file_mgr_.handed = refused.file_mgr_.handed ++ [rows]
  count : emptied.file_mgr_.rows = refused.file_mgr_.rows + rows.length
  exact : rows = batchRows (urls.map (StringVal.toString refused.arena.memory))
  summary : (∀ url, (urls.map (StringVal.toString refused.arena.memory)).count url < 2^31) →
    Summary (urls.map (StringVal.toString refused.arena.memory)) rows
  owns : emptied.arena.Owns []
  limit : emptied.arena.mem_tracker_.max_size_ = refused.arena.mem_tracker_.max_size_
  capped : ∀ cap, refused.arena.Capped cap → emptied.arena.Capped cap

def SpillFails (self : TopNFreqUrls) (urls : List StringVal) : Prop :=
  SpillMet env.faults self.file_mgr_.output_files_ self.file_mgr_.rows
    (batchRows (urls.map (StringVal.toString self.arena.memory)))

theorem AggregateAndSpillToDisk_spill (self : TopNFreqUrls) (urls : List StringVal) (owns : self.arena.Owns urls) :
    (self.AggregateAndSpillToDisk env urls).1 = false ∧ SpillFails env self urls ∨
      ¬ SpillFails env self urls ∧ ∃ emptied rows, self.AggregateAndSpillToDisk env urls = (true,emptied,[]) ∧
        Spill self emptied urls rows := by
  rcases AggregateAndSpillToDisk_cases env self urls owns with failed | ⟨sound,spilled,sorted,same,perm,
    writing,summary⟩
  · exact .inl failed
  · refine .inr ⟨sound,_,batchRows (urls.map (StringVal.toString self.arena.memory)),same,?_⟩
    have owned : spilled.arena.Owns (sorted ++ []) := by
      rw [writing.arena,List.append_nil]
      exact owns.perm perm.symm
    refine ⟨⟨writing.frame.num_results_,writing.frame.urls_scanned_,writing.frame.file_merger_,
      writing.frame.file_name_,writing.frame.in_⟩,writing.output_files_,writing.disk,writing.handed,writing.count,
      rfl,summary,owns_freeAll sorted [] spilled.arena owned,
      (freeAll_max sorted spilled.arena).trans (by rw [writing.arena]),fun cap capped => ?_⟩
    exact capped_freeAll sorted spilled.arena (List.append_nil sorted ▸ owned) (writing.arena ▸ capped)

theorem reserve_cases (self : TopNFreqUrls) (urls : List StringVal) (owns : self.arena.Owns urls) (len : Nat)
    (short : len < MAX_URL_LEN) (limit : 1024 ≤ self.arena.mem_tracker_.max_size_.toNat) :
    (self.arena.TryAllocate env.toPlatform (UInt64.ofNat len)).1 = nullptr ∧
      (self.reserve env urls len).1 = false ∧ SpillFails env self urls ∨
    (∃ ptr granted, self.reserve env urls len = (true,ptr,{self with arena := granted},urls) ∧
      self.arena.TryAllocate env.toPlatform (UInt64.ofNat len) = (ptr,granted) ∧ ptr ≠ nullptr) ∨
    urls ≠ [] ∧ ¬ SpillFails env self urls ∧ ∃ refused emptied rows ptr granted,
      self.arena.TryAllocate env.toPlatform (UInt64.ofNat len) = (nullptr,refused) ∧
      refused.Owns urls ∧ refused.memory = self.arena.memory ∧
      Spill {self with arena := refused} emptied urls rows ∧
      emptied.arena.TryAllocate env.toPlatform (UInt64.ofNat len) = (ptr,granted) ∧ ptr ≠ nullptr ∧
      self.reserve env urls len = (true,ptr,{emptied with arena := granted},[]) := by
  rcases asked : self.arena.TryAllocate env.toPlatform (UInt64.ofNat len) with ⟨ptr,arena⟩
  by_cases null : ptr = nullptr
  · subst null
    obtain ⟨kept,memory⟩ := owns.refused env.toPlatform (UInt64.ofNat len) (by rw [asked])
    rw [asked] at kept memory
    have nonempty : urls ≠ [] := by
      rintro rfl
      exact owns.room env.toPlatform len short limit (by rw [asked])
    have alike : SpillFails env {self with arena} urls ↔ SpillFails env self urls := by
      unfold SpillFails
      rw [memory]
    rcases AggregateAndSpillToDisk_spill env {self with arena} urls kept with
      ⟨failed,fault⟩ | ⟨sound,emptied,rows,same,spill⟩
    · rcases spilled : AggregateAndSpillToDisk env {self with arena} urls with ⟨_ | _,later,rest⟩
      · exact .inl ⟨rfl,by simp only [reserve,asked,if_true,spilled],alike.mp fault⟩
      · simp [spilled] at failed
    · have limited : 1024 ≤ emptied.arena.mem_tracker_.max_size_.toNat := by
        have given := Arena.TryAllocate_max env.toPlatform self.arena (UInt64.ofNat len)
        rw [asked] at given
        rw [spill.limit]
        exact given ▸ limit
      have room := spill.owns.room env.toPlatform len short limited
      rcases again : emptied.arena.TryAllocate env.toPlatform (UInt64.ofNat len) with ⟨second,granted⟩
      rw [again] at room
      refine .inr (.inr ⟨nonempty,alike.not.mp sound,arena,emptied,rows,second,granted,rfl,kept,memory,spill,
        again,room,?_⟩)
      simp only [reserve,asked,if_true,same,again]
  · refine .inr (.inl ⟨ptr,arena,?_,rfl,null⟩)
    simp only [reserve,asked,if_neg null]

def Reported (start : TopNFreqUrls) : Prop :=
  FaultMet env.faults (cut start.arena.mem_tracker_.max_size_ [] (urlsOf start.file_mgr_.in_))

/-- The first stage at work: `batches` have been spilled as the rows `spilled`,
the pool holds the strings of the current batch, and `pending` are the URLs that
are still to come. -/
structure Batching (start now : TopNFreqUrls) (urls : List StringVal) (pending : List Bytes)
    (batches : List (List Bytes)) (spilled : List (List (Bytes × Int32))) : Prop where
  owns : now.arena.Owns urls
  limit : now.arena.mem_tracker_.max_size_ = start.arena.mem_tracker_.max_size_
  capped : start.arena.mem_tracker_.max_size_.toNat + MAX_URL_LEN ≤ 2^64 →
    now.arena.Capped start.arena.mem_tracker_.max_size_.toNat
  rows : List.Forall₂ (fun batch rows => (∀ url, batch.count url < 2^31) → Summary batch rows) batches spilled
  nonempty : ∀ batch ∈ batches, batch ≠ []
  handed : now.file_mgr_.handed = spilled
  files : now.file_mgr_.output_files_ = spilled.length
  disk : ∀ j < spilled.length, now.disk (FileManager.OutputFileName start.file_mgr_.file_name_ j) =
    some ((spilled.getD j []).flatMap rowBytes)
  num_results_ : now.num_results_ = start.num_results_
  file_merger_ : now.file_merger_ = start.file_merger_
  file_name_ : now.file_mgr_.file_name_ = start.file_mgr_.file_name_
  read : urlsOf start.file_mgr_.in_ =
    batches.flatten ++ urls.map (StringVal.toString now.arena.memory) ++ pending
  scanned : now.urls_scanned_ = start.urls_scanned_ + UInt64.ofNat (batches.flatten.length + urls.length)
  cutting : cut start.arena.mem_tracker_.max_size_ [] (urlsOf start.file_mgr_.in_) =
    batches ++ cut start.arena.mem_tracker_.max_size_ (urls.map (StringVal.toString now.arena.memory)) pending
  exact : spilled = batches.map batchRows
  count : now.file_mgr_.rows = (batches.flatMap batchRows).length

/-- A program that has not started: nothing in the pool and no spill file. -/
structure Fresh (start : TopNFreqUrls) : Prop where
  owns : start.arena.Owns []
  limit : 1024 ≤ start.arena.mem_tracker_.max_size_.toNat
  calls : start.arena.calls = []
  handed : start.file_mgr_.handed = []
  files : start.file_mgr_.output_files_ = 0
  rows : start.file_mgr_.rows = 0

theorem Fresh.batching {start : TopNFreqUrls} (fresh : Fresh start) :
    Batching start start [] (urlsOf start.file_mgr_.in_) [] [] :=
  ⟨fresh.owns,rfl,fun _ => ⟨by rw [fresh.owns.bytes]; exact Nat.zero_le _,by simp [fresh.calls]⟩,
    .nil,by simp,fresh.handed,fresh.files,by simp,rfl,rfl,rfl,by simp,by simp,rfl,rfl,fresh.rows⟩

section Round
variable {start now : TopNFreqUrls} {urls : List StringVal} {pending : List Bytes}
  {batches : List (List Bytes)} {spilled : List (List (Bytes × Int32))}

theorem OutputFileName_ne (name : Bytes) (i j : Nat) (different : i ≠ j) :
    FileManager.OutputFileName name i ≠ FileManager.OutputFileName name j := fun same =>
  different (decimal_injective (List.append_cancel_left same))

theorem Batching.fails_iff (batching : Batching start now urls pending batches spilled)
    (clear : ¬ FaultMet env.faults batches) : SpillFails env now urls ↔
      FaultMet env.faults (batches ++ [urls.map (StringVal.toString now.arena.memory)]) := by
  have files : now.file_mgr_.output_files_ = batches.length := by
    rw [batching.files,batching.exact,List.length_map]
  rw [faultMet_snoc,or_iff_right clear,SpillFails,files,batching.count]

private theorem Batching.spill (batching : Batching start now urls pending batches spilled)
    (nonempty : urls ≠ []) (emptied : TopNFreqUrls) (rows : List (Bytes × Int32))
    (closes : cut start.arena.mem_tracker_.max_size_ (urls.map (StringVal.toString now.arena.memory)) pending =
      urls.map (StringVal.toString now.arena.memory) :: cut start.arena.mem_tracker_.max_size_ [] pending)
    (done : Spill now emptied urls rows) :
    Batching start emptied [] pending (batches ++ [urls.map (StringVal.toString now.arena.memory)])
      (spilled ++ [rows]) := by
  have files : emptied.file_mgr_.output_files_ = spilled.length + 1 := by
    rw [done.output_files_,batching.files]
  refine ⟨done.owns,done.limit.trans batching.limit,fun narrow => done.capped _ (batching.capped narrow),?_,?_,
    by rw [done.handed,batching.handed],?_,?_,?_,?_,?_,?_,?_,?_,?_,?_⟩
  · exact List.rel_append batching.rows (.cons done.summary .nil)
  · intro batch member
    rcases List.mem_append.mp member with old | new
    · exact batching.nonempty batch old
    · rw [List.mem_singleton.mp new]
      simpa using nonempty
  · simpa using files
  · intro j bound
    rw [done.disk,batching.file_name_,batching.files,List.getD_eq_getElem?_getD]
    simp only [List.length_append,List.length_singleton] at bound
    rcases Nat.lt_succ_iff_lt_or_eq.mp bound with old | rfl
    · rw [Function.update_of_ne (OutputFileName_ne _ _ _ old.ne),batching.disk j old,
        List.getElem?_append_left old,List.getD_eq_getElem?_getD]
    · rw [Function.update_self,List.getElem?_append_right le_rfl,Nat.sub_self]
      rfl
  · exact done.frame.num_results_.trans batching.num_results_
  · exact done.frame.file_merger_.trans batching.file_merger_
  · exact done.frame.file_name_.trans batching.file_name_
  · rw [batching.read]
    simp
  · rw [done.frame.urls_scanned_,batching.scanned]
    simp
  · rw [batching.cutting,closes,List.append_assoc]
    rfl
  · rw [List.map_append,batching.exact,done.exact]
    rfl
  · rw [done.count,batching.count,done.exact,List.flatMap_append,List.flatMap_singleton,List.length_append]

private theorem Batching.refused (batching : Batching start now urls pending batches spilled) (arena : Arena)
    (owns : arena.Owns urls) (memory : arena.memory = now.arena.memory)
    (limit : arena.mem_tracker_.max_size_ = now.arena.mem_tracker_.max_size_)
    (capped : ∀ cap, now.arena.Capped cap → arena.Capped cap) :
    Batching start {now with arena} urls pending batches spilled :=
  ⟨owns,limit.trans batching.limit,fun narrow => capped _ (batching.capped narrow),batching.rows,
    batching.nonempty,batching.handed,batching.files,batching.disk,
    batching.num_results_,batching.file_merger_,batching.file_name_,by rw [batching.read,← memory],
    batching.scanned,by rw [batching.cutting,← memory],batching.exact,batching.count⟩

private theorem Batching.store {url : Bytes} {rest : List Bytes}
    (batching : Batching start now urls (url :: rest) batches spilled)
    (bound : 1 ≤ url.length ∧ url.length < MAX_URL_LEN) (ptr : Ptr) (granted : Arena)
    (call : now.arena.TryAllocate env.toPlatform (UInt64.ofNat url.length) = (ptr,granted))
    (given : ptr ≠ nullptr) :
    Batching start (TopNFreqUrls.store {now with arena := granted} urls ptr url).self
      (TopNFreqUrls.store {now with arena := granted} urls ptr url).urls rest batches spilled := by
  obtain ⟨owns,content,frame⟩ := batching.owns.tryAllocate env.toPlatform url bound ptr granted call given
  have limit := Arena.TryAllocate_max env.toPlatform now.arena (UInt64.ofNat url.length)
  rw [call] at limit
  have capped (narrow : start.arena.mem_tracker_.max_size_.toNat + MAX_URL_LEN ≤ 2^64) :=
    Arena.Capped.granted env.toPlatform batching.owns (batching.limit ▸ batching.capped narrow) (batching.limit ▸ narrow)
      bound call given
  rw [batching.limit] at capped
  have kept : urls.map (StringVal.toString (granted.memcpy ptr url).memory) =
      urls.map (StringVal.toString now.arena.memory) :=
    List.map_congr_left fun v member => StringVal.toString_congr (frame v member)
  have joined : (TopNFreqUrls.store {now with arena := granted} urls ptr url).urls.map (StringVal.toString
      (TopNFreqUrls.store {now with arena := granted} urls ptr url).self.arena.memory) =
        urls.map (StringVal.toString now.arena.memory) ++ [url] := by
    simp only [TopNFreqUrls.store,List.map_append,kept,List.map_cons,List.map_nil,content]
  have fits : ¬ start.arena.mem_tracker_.max_size_ <
      UInt64.ofNat ((urls.map (StringVal.toString now.arena.memory)).flatten.length + url.length) := by
    rw [← batching.limit,← batching.owns.full_iff env.toPlatform,call]
    exact given
  refine ⟨owns.perm (List.perm_append_singleton _ _).symm,limit.trans batching.limit,capped,batching.rows,
    batching.nonempty,batching.handed,batching.files,batching.disk,batching.num_results_,batching.file_merger_,
    batching.file_name_,?_,?_,?_,batching.exact,batching.count⟩
  · rw [batching.read,joined]
    simp
  · simp only [TopNFreqUrls.store,batching.scanned,List.length_append,List.length_singleton]
    rw [← Nat.add_assoc,UInt64.ofNat_add _ 1,← UInt64.add_assoc]
    rfl
  · rw [batching.cutting,joined,cut,if_neg fits]

theorem Batching.streams (batching : Batching start now urls pending batches spilled) (in_ : IStream)
    (out_ : OStream) :
    Batching start {now with file_mgr_ := {now.file_mgr_ with in_, out_}} urls pending batches spilled :=
  ⟨batching.owns,batching.limit,batching.capped,batching.rows,batching.nonempty,batching.handed,batching.files,
    batching.disk,batching.num_results_,batching.file_merger_,batching.file_name_,batching.read,
    batching.scanned,batching.cutting,batching.exact,batching.count⟩

theorem Batching.take {url : Bytes} {rest : List Bytes}
    (batching : Batching start now urls (url :: rest) batches spilled)
    (clear : ¬ FaultMet env.faults batches)
    (limit : 1024 ≤ start.arena.mem_tracker_.max_size_.toNat)
    (bound : 1 ≤ url.length ∧ url.length < MAX_URL_LEN) :
    (now.reserve env urls url.length).1 = false ∧ Reported env start ∨
      ∃ ptr later kept more files, now.reserve env urls url.length = (true,ptr,later,kept) ∧ ptr ≠ nullptr ∧
        later.file_mgr_.in_ = now.file_mgr_.in_ ∧
        (more = batches ∨ ∃ refused,
          now.arena.TryAllocate env.toPlatform (UInt64.ofNat url.length) = (nullptr,refused) ∧
          more = batches ++ [urls.map (StringVal.toString refused.memory)]) ∧
        ¬ FaultMet env.faults more ∧
        Batching start (later.store kept ptr url).self (later.store kept ptr url).urls rest more files := by
  have roomy : 1024 ≤ now.arena.mem_tracker_.max_size_.toNat := batching.limit ▸ limit
  have closes (null : (now.arena.TryAllocate env.toPlatform (UInt64.ofNat url.length)).1 = nullptr) :
      cut start.arena.mem_tracker_.max_size_ (urls.map (StringVal.toString now.arena.memory)) (url :: rest) =
        urls.map (StringVal.toString now.arena.memory) ::
          cut start.arena.mem_tracker_.max_size_ [] (url :: rest) := by
    rw [batching.owns.full_iff env.toPlatform,batching.limit] at null
    rw [cut,if_pos null,cut_alone _ url rest limit bound.2]
  rcases reserve_cases env now urls batching.owns url.length bound.2 roomy with
    ⟨null,failed,fault⟩ | ⟨ptr,granted,same,call,given⟩ |
    ⟨nonempty,sound,refused,emptied,rows,ptr,granted,asked,owns,memory,spill,call,given,same⟩
  · refine .inl ⟨failed,?_⟩
    rw [Reported,batching.cutting,closes null,List.append_cons]
    exact ((batching.fails_iff env clear).mp fault).append _
  · exact .inr ⟨ptr,_,_,_,_,same,given,rfl,.inl rfl,clear,batching.store env bound ptr granted call given⟩
  · have unchanged := Arena.TryAllocate_max env.toPlatform now.arena (UInt64.ofNat url.length)
    rw [asked] at unchanged
    have capped (cap : Nat) (before : now.arena.Capped cap) : refused.Capped cap := by
      have after := before.refused env.toPlatform (UInt64.ofNat url.length) (by rw [asked])
      rwa [asked] at after
    have spilledNow := (batching.refused refused owns memory unchanged capped).spill nonempty emptied rows
      (by rw [memory]; exact closes (by rw [asked])) spill
    refine .inr ⟨ptr,_,_,_,_,same,given,spill.frame.in_,.inr ⟨refused,asked,rfl⟩,?_,
      spilledNow.store env bound ptr granted call given⟩
    rw [memory]
    exact (batching.fails_iff env clear).not.mp sound

end Round

/-- The calls of `AggregateAndSpillToDisk` from a state of the loop: when a request
has been refused, and when the input has ended. -/
inductive SpillCall (s : PartialState) : TopNFreqUrls → List StringVal → Prop
  | full (in_ : IStream) (url : Bytes) (refused : Arena) (running : s.status = .running)
      (read : FileManager.ReadLine s.self.file_mgr_.in_ MAX_URL_LEN newline = (in_,some url))
      (null : s.self.arena.TryAllocate env.toPlatform (UInt64.ofNat url.length) = (nullptr,refused)) :
      SpillCall s {s.self.withInput in_ with arena := refused} s.urls
  | last (finished : s.status = .finished) (nonempty : s.urls ≠ []) : SpillCall s s.self s.urls

def Called (start : TopNFreqUrls) (batch : List Bytes) : Prop :=
  ∃ n self urls, SpillCall env (PartialSort.head env start n) self urls ∧
    batch = urls.map (StringVal.toString self.arena.memory)

/-! Spilling does not touch the input stream. -/

theorem countRuns_input (self : TopNFreqUrls) (curr_tuple : ResultTuple) (urls : List StringVal) :
    (self.countRuns env curr_tuple urls).2.1.file_mgr_.in_ = self.file_mgr_.in_ := by
  induction urls generalizing self curr_tuple with
  | nil => rfl
  | cons url rest ih =>
    simp only [countRuns]
    split
    · exact ih self _
    · split
      · exact ih self _
      · have written : (self.write env curr_tuple).2.file_mgr_.in_ = self.file_mgr_.in_ := rfl
        split <;> rename_i later wrote <;> rw [wrote] at written
        · exact written
        · exact (ih later _).trans written

theorem AggregateAndSpillToDisk_input (self : TopNFreqUrls) (urls : List StringVal) :
    (self.AggregateAndSpillToDisk env urls).2.1.file_mgr_.in_ = self.file_mgr_.in_ := by
  unfold AggregateAndSpillToDisk
  have created : (self.file_mgr_.NewOutputFile env self.disk).2.2.in_ = self.file_mgr_.in_ := rfl
  split <;> rename_i disk mgr made <;> rw [made] at created
  · exact created
  dsimp only
  have counted := countRuns_input env {self with disk, file_mgr_ := mgr} (env.uninit self.arena.requests).SetEmpty
    (env.sorting.sort (StringVal.less self.arena.memory) urls)
  split <;> rename_i now curr_tuple run <;> rw [run] at counted
  · exact counted.trans created
  have last : (now.writeLast env curr_tuple).2.file_mgr_.in_ = now.file_mgr_.in_ := by
    unfold writeLast
    split <;> rfl
  split <;> rename_i after wrote <;> rw [wrote] at last <;> exact last.trans (counted.trans created)

theorem reserve_input (self : TopNFreqUrls) (urls : List StringVal) (len : Nat) :
    (self.reserve env urls len).2.2.1.file_mgr_.in_ = self.file_mgr_.in_ := by
  unfold reserve
  rcases self.arena.TryAllocate env.toPlatform (UInt64.ofNat len) with ⟨ptr,arena⟩
  dsimp only
  split
  · have spilled := AggregateAndSpillToDisk_input env {self with arena} urls
    split <;> rename_i after left run <;> rw [run] at spilled <;> exact spilled
  · rfl

/-- A number of rounds that is enough for the rest of the loop. -/
def PartialSort.toGo (s : PartialState) : Nat :=
  if s.status = .running then s.self.file_mgr_.in_.after.length + 1 else 0

theorem PartialSort.step_nearer (s next : PartialState) (again : PartialSort.step env s = some next) :
    PartialSort.toGo next < PartialSort.toGo s := by
  obtain ⟨self,urls,status⟩ := s
  cases status with
  | finished => cases again
  | failed => cases again
  | running =>
    simp only [PartialSort.step] at again
    rcases read : FileManager.ReadLine self.file_mgr_.in_ MAX_URL_LEN newline with ⟨in_,_ | url⟩
    · simp only [read,Option.some.injEq] at again
      subst again
      simp [PartialSort.toGo]
    · have taken := (ReadLine_url _ _ _ read).2.2.2
      have input := reserve_input env (self.withInput in_) urls url.length
      simp only [read] at again
      rcases reserved : (self.withInput in_).reserve env urls url.length with ⟨_ | _,ptr,later,kept⟩
      · simp only [reserved,Option.some.injEq] at again
        subst again
        simp [PartialSort.toGo]
      · simp only [reserved,Option.some.injEq] at again input
        subst again
        have left : (later.store kept ptr url).self.file_mgr_.in_ = in_ := input
        simp only [PartialSort.toGo,left,if_true]
        split <;> omega

/-- The loop ends within as many rounds as the input has bytes, and one. -/
theorem head_stopped (start : TopNFreqUrls) :
    PartialSort.step env (PartialSort.head env start (start.file_mgr_.in_.after.length + 1)) = none :=
  loop_ends (PartialSort.step env) PartialSort.toGo (PartialSort.step_nearer env) ⟨start,[],.running⟩ _ le_rfl

theorem head_ended (start : TopNFreqUrls) :
    (PartialSort.head env start (start.file_mgr_.in_.after.length + 1)).status ≠ .running := by
  intro running
  have ended := head_stopped env start
  generalize PartialSort.head env start (start.file_mgr_.in_.after.length + 1) = s at ended running
  simp only [PartialSort.step,running] at ended
  split at ended
  · cases ended
  · split at ended <;> cases ended

def AtHead (env : Env) (start : TopNFreqUrls) (s : PartialState) : Prop :=
  s.status = .failed ∧ Reported env start ∨
    s.status ≠ .failed ∧ ∃ batches spilled, (∀ batch ∈ batches, Called env start batch) ∧
      ¬ FaultMet env.faults batches ∧
      Batching start s.self s.urls (if s.status = .running then urlsOf s.self.file_mgr_.in_ else []) batches spilled

private theorem step_kept (start : TopNFreqUrls) (limit : 1024 ≤ start.arena.mem_tracker_.max_size_.toNat)
    (n : Nat) (s next : PartialState) (reached : PartialSort.head env start n = s) (head : AtHead env start s)
    (again : PartialSort.step env s = some next) :
    AtHead env start next := by
  obtain ⟨self,urls,status⟩ := s
  cases status with
  | finished => cases again
  | failed => cases again
  | running =>
    obtain ⟨failed,_⟩ | ⟨_,batches,spilled,called,clear,batching⟩ := head
    · cases failed
    simp only [if_true] at batching
    simp only [PartialSort.step] at again
    rcases read : FileManager.ReadLine self.file_mgr_.in_ MAX_URL_LEN newline with ⟨in_,_ | url⟩
    · rw [urlsOf_none _ _ read] at batching
      simp only [read,Option.some.injEq] at again
      subst again
      exact .inr ⟨by simp,batches,spilled,called,clear,batching.streams in_ self.file_mgr_.out_⟩
    · obtain ⟨positive,short,_⟩ := ReadLine_url _ _ _ read
      rw [urlsOf_some _ _ _ read] at batching
      simp only [read] at again
      have reading : Batching start (self.withInput in_) urls (url :: urlsOf in_) batches spilled :=
        batching.streams in_ self.file_mgr_.out_
      rcases reading.take env clear limit ⟨positive,short⟩ with
        ⟨failed,fault⟩ | ⟨ptr,later,kept,more,files,same,_,input,spills,clearMore,stored⟩
      · rcases reserved : (self.withInput in_).reserve env urls url.length with ⟨_ | _,ptr,later,kept⟩
        · simp only [reserved,Option.some.injEq] at again
          subst again
          exact .inl ⟨rfl,fault⟩
        · simp [reserved] at failed
      · simp only [same,Option.some.injEq] at again
        subst again
        have left : (later.store kept ptr url).self.file_mgr_.in_ = in_ := input
        have calledMore : ∀ batch ∈ more, Called env start batch := by
          rcases spills with rfl | ⟨refused,null,rfl⟩
          · exact called
          · intro batch member
            rcases List.mem_append.mp member with old | new
            · exact called batch old
            · rw [List.mem_singleton.mp new]
              refine ⟨n,{self.withInput in_ with arena := refused},urls,?_,rfl⟩
              rw [reached]
              exact .full in_ url refused rfl read null
        refine .inr ⟨by simp [TopNFreqUrls.store],more,files,calledMore,clearMore,?_⟩
        rwa [show (later.store kept ptr url).status = .running from rfl,if_pos rfl,left]

theorem SpillCall.within {start : TopNFreqUrls} {s : PartialState} {self : TopNFreqUrls} {urls : List StringVal}
    (call : SpillCall env s self urls) (head : AtHead env start s) (faultless : ¬ Reported env start) :
    self.arena.Owns urls ∧ ∀ url, (urls.map (StringVal.toString self.arena.memory)).count url ≤
      (urlsOf start.file_mgr_.in_).count url := by
  obtain ⟨_,fault⟩ | ⟨_,batches,spilled,_,_,batching⟩ := head
  · exact absurd fault faultless
  have part (url : Bytes) : (s.urls.map (StringVal.toString s.self.arena.memory)).count url ≤
      (urlsOf start.file_mgr_.in_).count url := by
    rw [batching.read,List.count_append,List.count_append]
    omega
  cases call with
  | last => exact ⟨batching.owns,part⟩
  | full in_ url refused running read null =>
    obtain ⟨owns,memory⟩ := batching.owns.refused env.toPlatform (UInt64.ofNat url.length) (by rw [null])
    rw [null] at owns memory
    refine ⟨owns,?_⟩
    change ∀ url, (s.urls.map (StringVal.toString refused.memory)).count url ≤ _
    rw [memory]
    exact part

theorem head_next (start : TopNFreqUrls) (n : Nat) (next : PartialState)
    (again : PartialSort.step env (PartialSort.head env start n) = some next) :
    PartialSort.head env start (n+1) = next := by
  unfold PartialSort.head at again ⊢
  rw [loop_succ,again]
  rfl

theorem head_state (start : TopNFreqUrls) (fresh : Fresh start) (n : Nat) :
    AtHead env start (PartialSort.head env start n) := by
  induction n with
  | zero => exact .inr ⟨by simp [PartialSort.head],[],[],by simp,by simp [FaultMet],fresh.batching⟩
  | succ n ih =>
    cases again : PartialSort.step env (PartialSort.head env start n) with
    | none =>
      unfold PartialSort.head at again ih ⊢
      rw [loop_succ,again]
      exact ih
    | some next =>
      rw [head_next env start n next again]
      exact step_kept env start fresh.limit n _ next rfl ih again

/-- The first stage reports the fault that it meets, or every URL has been spilled
and the pool is empty. -/
theorem PartialSort_cases (self : TopNFreqUrls) (file_mgr_ : FileManager)
    (opened : self.file_mgr_.Open env self.disk = (true,file_mgr_))
    (fresh : Fresh {self with file_mgr_}) :
    (self.PartialSort env).1 = false ∧ Reported env {self with file_mgr_} ∨
      (self.PartialSort env).1 = true ∧ ¬ Reported env {self with file_mgr_} ∧ ∃ batches spilled,
        (∀ batch ∈ batches, Called env {self with file_mgr_} batch) ∧
        Batching {self with file_mgr_} (self.PartialSort env).2 [] [] batches spilled := by
  simp only [PartialSort,opened]
  have head := head_state env {self with file_mgr_} fresh (file_mgr_.in_.after.length + 1)
  have ended := head_ended env {self with file_mgr_}
  have calls (given : TopNFreqUrls) (urls : List StringVal)
      (call : SpillCall env (PartialSort.head env {self with file_mgr_} (file_mgr_.in_.after.length + 1))
        given urls) :
      Called env {self with file_mgr_} (urls.map (StringVal.toString given.arena.memory)) := ⟨_,_,_,call,rfl⟩
  generalize PartialSort.head env {self with file_mgr_} (file_mgr_.in_.after.length + 1) = s at head ended calls
  obtain ⟨now,urls,status⟩ := s
  rcases head with ⟨failed,fault⟩ | ⟨sound,batches,spilled,called,clear,batching⟩
  · left
    dsimp only at failed
    subst failed
    exact ⟨rfl,fault⟩
  · dsimp only at sound ended batching
    rw [if_neg ended] at batching
    simp only [PartialSort.finish,if_neg sound]
    cases urls with
    | nil =>
      have all : Reported env {self with file_mgr_} ↔ FaultMet env.faults batches := by
        rw [Reported,batching.cutting,List.map_nil,cut,if_pos rfl,List.append_nil]
      exact .inr ⟨rfl,all.not.mpr clear,batches,spilled,called,batching.streams _ _⟩
    | cons url rest =>
      have nonempty : (url :: rest).map (StringVal.toString now.arena.memory) ≠ [] := by simp
      have all : Reported env {self with file_mgr_} ↔ FaultMet env.faults
          (batches ++ [(url :: rest).map (StringVal.toString now.arena.memory)]) := by
        rw [Reported,batching.cutting,cut,if_neg nonempty]
      simp only [List.isEmpty_cons,Bool.false_eq_true,if_false]
      rcases AggregateAndSpillToDisk_spill env now (url :: rest) batching.owns with
        ⟨failed,fault⟩ | ⟨still,emptied,rows,same,spill⟩
      · rcases run : now.AggregateAndSpillToDisk env (url :: rest) with ⟨_ | _,later,left⟩
        · exact .inl ⟨rfl,all.mpr ((batching.fails_iff env clear).mp fault)⟩
        · simp [run] at failed
      · have done := batching.spill (by simp) emptied rows (by rw [cut,if_neg nonempty]; rfl) spill
        have finished : status = .finished := by
          cases status with
          | finished => rfl
          | running => exact absurd rfl ended
          | failed => exact absurd rfl sound
        rw [same]
        refine .inr ⟨rfl,?_,_,_,fun batch member => ?_,done.streams _ _⟩
        · exact all.not.mpr ((batching.fails_iff env clear).not.mp still)
        rcases List.mem_append.mp member with old | new
        · exact called batch old
        · rw [List.mem_singleton.mp new]
          exact calls now (url :: rest) (.last finished (by simp))

end TopNFreqUrls
end TopNFreq
