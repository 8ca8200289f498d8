import TopNFreq.FaultMerge
import TopNFreq.RoundTrip

/-! The files that a run touches: the spill files, each created once, and after
the run none of them. -/
namespace TopNFreq
open Library.Text Library.InputStream Library.Loop IStream FileManager

theorem OutputFileName_length (file : Bytes) (i : Nat) : file.length < (OutputFileName file i).length := by
  simp [OutputFileName,suffix]

/-- No row has a tab in its URL. -/
def TabFree (batches : List (List Bytes)) : Prop :=
  ∀ batch ∈ batches, ∀ url ∈ batch, tab ∈ url → batch.count url % 2^32 = 0

/-- The spill files of `batches`, and besides them what was there before. -/
structure Wrote (disk : Disk) (file : Bytes) (batches : List (List Bytes)) (later : Disk) : Prop where
  files : ∀ i batch, batches[i]? = some batch →
    later (OutputFileName file i) = some ((batchRows batch).flatMap rowBytes)
  others : ∀ name, (∀ i < batches.length, name ≠ OutputFileName file i) → later name = disk name

namespace TopNFreqUrls
variable (env : Env)

/-! ## What the first stage leaves alone -/

/-- Rows go to the open file only. -/
structure WritesOnly (before after : TopNFreqUrls) : Prop where
  target : after.file_mgr_.out_.target = before.file_mgr_.out_.target
  file_name_ : after.file_mgr_.file_name_ = before.file_mgr_.file_name_
  output_files_ : after.file_mgr_.output_files_ = before.file_mgr_.output_files_
  disk : ∀ name, before.file_mgr_.out_.target ≠ some name → after.disk name = before.disk name

theorem WritesOnly.refl (self : TopNFreqUrls) : WritesOnly self self := ⟨rfl,rfl,rfl,fun _ _ => rfl⟩

theorem WritesOnly.trans {first second third : TopNFreqUrls} (one : WritesOnly first second)
    (two : WritesOnly second third) : WritesOnly first third := by
  refine ⟨two.target.trans one.target,two.file_name_.trans one.file_name_,
    two.output_files_.trans one.output_files_,?_⟩
  intro name other
  exact (two.disk name (one.target ▸ other)).trans (one.disk name other)

theorem put_frame (out_ : OStream) (disk : Disk) (text : Bytes) :
    (out_.put disk text).2.target = out_.target ∧
      ∀ name, out_.target ≠ some name → (out_.put disk text).1 name = disk name := by
  unfold OStream.put
  split
  · exact ⟨rfl,fun _ _ => rfl⟩
  · split
    · rename_i closed
      exact ⟨rfl,fun _ _ => rfl⟩
    · rename_i open_ opened
      refine ⟨opened.symm ▸ rfl,?_⟩
      intro name other
      apply Function.update_of_ne
      rintro rfl
      exact other opened

theorem write_frame (self : TopNFreqUrls) (res : ResultTuple) : WritesOnly self (self.write env res).2 := by
  obtain ⟨out_,same⟩ : ∃ out_, out_ = if env.faults.writeRow self.file_mgr_.rows then
    {self.file_mgr_.out_ with failbit := true} else self.file_mgr_.out_ := ⟨_,rfl⟩
  have target : out_.target = self.file_mgr_.out_.target := by
    rw [same]
    split <;> rfl
  obtain ⟨firstTarget,first⟩ := put_frame out_ self.disk (res.str.toString self.arena.memory)
  obtain ⟨secondTarget,second⟩ := put_frame (out_.put self.disk (res.str.toString self.arena.memory)).2
    (out_.put self.disk (res.str.toString self.arena.memory)).1 (tab :: decimalInt res.cnt.toInt ++ [newline])
  simp only [write,WriteResultTuple,← same]
  refine ⟨secondTarget.trans (firstTarget.trans target),rfl,rfl,?_⟩
  intro name other
  rw [← target] at other
  exact (second name (firstTarget ▸ other)).trans (first name other)

theorem countRuns_frame (self : TopNFreqUrls) (curr_tuple : ResultTuple) (urls : List StringVal) :
    WritesOnly self (self.countRuns env curr_tuple urls).2.1 := by
  induction urls generalizing self curr_tuple with
  | nil => exact .refl self
  | cons url rest ih =>
    simp only [countRuns]
    split
    · exact ih self _
    · split
      · exact ih self _
      · have written := write_frame env self curr_tuple
        split <;> rename_i later wrote <;> rw [wrote] at written
        · exact written
        · exact written.trans (ih later _)

theorem writeLast_frame (self : TopNFreqUrls) (curr_tuple : ResultTuple) :
    WritesOnly self (self.writeLast env curr_tuple).2 := by
  unfold writeLast
  split
  · exact .refl self
  · exact write_frame env self curr_tuple

/-- Only the spill files that are new may have changed. -/
structure Touched (before after : TopNFreqUrls) : Prop where
  file_name_ : after.file_mgr_.file_name_ = before.file_mgr_.file_name_
  output_files_ : before.file_mgr_.output_files_ ≤ after.file_mgr_.output_files_
  disk : ∀ name, (∀ i, before.file_mgr_.output_files_ ≤ i → i < after.file_mgr_.output_files_ →
    name ≠ OutputFileName before.file_mgr_.file_name_ i) → after.disk name = before.disk name

theorem Touched.refl (self : TopNFreqUrls) : Touched self self := ⟨rfl,le_rfl,fun _ _ => rfl⟩

theorem Touched.trans {first second third : TopNFreqUrls} (one : Touched first second)
    (two : Touched second third) : Touched first third := by
  refine ⟨two.file_name_.trans one.file_name_,one.output_files_.trans two.output_files_,?_⟩
  intro name other
  rw [two.disk name,one.disk name]
  · intro i low high
    exact other i low (high.trans_le two.output_files_)
  · intro i low high
    rw [one.file_name_]
    exact other i (one.output_files_.trans low) high

/-- Only the next spill file may have changed, and it is open. -/
structure Created (before after : TopNFreqUrls) : Prop where
  file_name_ : after.file_mgr_.file_name_ = before.file_mgr_.file_name_
  output_files_ : after.file_mgr_.output_files_ = before.file_mgr_.output_files_ + 1
  target : ∀ name, after.file_mgr_.out_.target = some name →
    name = OutputFileName before.file_mgr_.file_name_ before.file_mgr_.output_files_
  disk : ∀ name, name ≠ OutputFileName before.file_mgr_.file_name_ before.file_mgr_.output_files_ →
    after.disk name = before.disk name

theorem NewOutputFile_frame (self : TopNFreqUrls) : Created self {self with
    disk := (self.file_mgr_.NewOutputFile env self.disk).2.1
    file_mgr_ := (self.file_mgr_.NewOutputFile env self.disk).2.2} := by
  simp only [NewOutputFile,OStream.openFile]
  split
  · refine ⟨rfl,rfl,fun name target => ?_,fun _ _ => rfl⟩
    simp only [OStream.close] at target
    split at target <;> simp_all
  · refine ⟨rfl,rfl,fun name target => ?_,fun name other => Function.update_of_ne other _ _⟩
    exact (Option.some.inj target).symm

theorem Created.write {before created after : TopNFreqUrls} (made : Created before created)
    (writes : WritesOnly created after) : Created before after := by
  refine ⟨writes.file_name_.trans made.file_name_,writes.output_files_.trans made.output_files_,?_,?_⟩
  · rw [writes.target]
    exact made.target
  · intro name other
    rw [writes.disk name fun target => other (made.target name target)]
    exact made.disk name other

theorem Created.touched {before after : TopNFreqUrls} (made : Created before after) :
    Touched before after ∧ after.file_mgr_.output_files_ = before.file_mgr_.output_files_ + 1 := by
  refine ⟨⟨made.file_name_,?_,?_⟩,made.output_files_⟩
  · rw [made.output_files_]
    exact Nat.le_succ _
  · intro name untouched
    apply made.disk
    apply untouched _ le_rfl
    rw [made.output_files_]
    exact Nat.lt_succ_self _

/-- A spill creates one file, and writes to no other. -/
theorem AggregateAndSpillToDisk_frame (self : TopNFreqUrls) (urls : List StringVal) :
    Touched self (self.AggregateAndSpillToDisk env urls).2.1 ∧
      (self.AggregateAndSpillToDisk env urls).2.1.file_mgr_.output_files_ =
        self.file_mgr_.output_files_ + 1 := by
  have opened := NewOutputFile_frame env self
  unfold AggregateAndSpillToDisk
  rcases made : self.file_mgr_.NewOutputFile env self.disk with ⟨ok,disk,mgr⟩
  rw [made] at opened
  cases ok with
  | false => exact opened.touched
  | true =>
    dsimp only at opened ⊢
    have counted := countRuns_frame env {self with disk, file_mgr_ := mgr} (env.uninit self.arena.requests).SetEmpty
      (env.sorting.sort (StringVal.less self.arena.memory) urls)
    split <;> rename_i now curr_tuple run <;> rw [run] at counted
    · exact (opened.write counted).touched
    have last := counted.trans (writeLast_frame env now curr_tuple)
    split <;> rename_i after wrote <;> rw [wrote] at last
    · exact (opened.write last).touched
    -- Emptying the pool leaves the files alone.
    · have freed : WritesOnly _ (after.freeAll (env.sorting.sort (StringVal.less self.arena.memory) urls)) :=
        ⟨last.target,last.file_name_,last.output_files_,last.disk⟩
      exact (opened.write freed).touched

theorem reserve_frame (self : TopNFreqUrls) (urls : List StringVal) (len : Nat) :
    Touched self (self.reserve env urls len).2.2.1 ∧
      (self.reserve env urls len).2.2.1.file_mgr_.output_files_ ≤ self.file_mgr_.output_files_ + 1 := by
  unfold reserve
  rcases self.arena.TryAllocate env.toPlatform (UInt64.ofNat len) with ⟨ptr,arena⟩
  dsimp only
  split
  · obtain ⟨touched,files⟩ := AggregateAndSpillToDisk_frame env {self with arena} urls
    have emptied : Touched self (AggregateAndSpillToDisk env {self with arena} urls).2.1 :=
      ⟨touched.file_name_,touched.output_files_,touched.disk⟩
    split <;> rename_i after left run <;> rw [run] at emptied files
    · exact ⟨emptied,files.le⟩
    · exact ⟨⟨emptied.file_name_,emptied.output_files_,emptied.disk⟩,files.le⟩
  · exact ⟨⟨rfl,le_rfl,fun _ _ => rfl⟩,Nat.le_succ _⟩

theorem step_frame (s next : PartialState) (again : PartialSort.step env s = some next) :
    Touched s.self next.self ∧
      next.self.file_mgr_.output_files_ ≤ s.self.file_mgr_.output_files_ + 1 := by
  obtain ⟨self,urls,status⟩ := s
  cases status with
  | finished => cases again
  | failed => cases again
  | running =>
    simp only [PartialSort.step] at again
    rcases read : FileManager.ReadLine self.file_mgr_.in_ MAX_URL_LEN newline with ⟨in_,_ | url⟩
    · simp only [read,Option.some.injEq] at again
      subst again
      exact ⟨⟨rfl,le_rfl,fun _ _ => rfl⟩,Nat.le_succ _⟩
    · obtain ⟨touched,files⟩ := reserve_frame env (self.withInput in_) urls url.length
      simp only [read] at again
      rcases reserved : (self.withInput in_).reserve env urls url.length with ⟨_ | _,ptr,later,kept⟩
        <;> simp only [reserved,Option.some.injEq] at again touched files
        <;> subst again
        <;> exact ⟨⟨touched.file_name_,touched.output_files_,touched.disk⟩,files⟩

theorem head_frame (start : TopNFreqUrls) (n more : Nat) (later : n ≤ more) :
    Touched (PartialSort.head env start n).self (PartialSort.head env start more).self := by
  obtain ⟨extra,rfl⟩ := Nat.exists_eq_add_of_le later
  unfold PartialSort.head
  rw [loop_add]
  generalize loop (PartialSort.step env) n ⟨start,[],.running⟩ = reached
  refine loop_invariant (PartialSort.step env) (fun s => Touched reached.self s.self) ?_ reached (.refl _) extra
  intro s next touched again
  exact touched.trans (step_frame env s next again).1

theorem finish_frame (s : PartialState) : Touched s.self (PartialSort.finish env s).2 ∧
    (PartialSort.finish env s).2.file_mgr_.output_files_ ≤ s.self.file_mgr_.output_files_ + 1 := by
  have spilled : Touched s.self (if s.urls.isEmpty then (true,s.self,s.urls) else
      s.self.AggregateAndSpillToDisk env s.urls).2.1 ∧ (if s.urls.isEmpty then (true,s.self,s.urls) else
        s.self.AggregateAndSpillToDisk env s.urls).2.1.file_mgr_.output_files_ ≤
          s.self.file_mgr_.output_files_ + 1 := by
    split
    · exact ⟨.refl _,Nat.le_succ _⟩
    · obtain ⟨touched,files⟩ := AggregateAndSpillToDisk_frame env s.self s.urls
      exact ⟨touched,files.le⟩
  unfold PartialSort.finish
  split
  · exact ⟨.refl _,Nat.le_succ _⟩
  · obtain ⟨touched,files⟩ := spilled
    split <;> rename_i after left run <;> rw [run] at touched files
    · exact ⟨touched,files⟩
    · exact ⟨⟨touched.file_name_,touched.output_files_,touched.disk⟩,files⟩

end TopNFreqUrls

/-! ## What the second stage leaves alone -/

namespace FileMerger

/-- The same files under other rows. -/
structure SameFiles (m after : FileMerger) : Prop where
  base_file_name_ : after.base_file_name_ = m.base_file_name_
  test_mode : after.test_mode = m.test_mode
  count : after.sorted_files_.length = m.sorted_files_.length

theorem SameFiles.refl (m : FileMerger) : SameFiles m m := ⟨rfl,rfl,rfl⟩

theorem SameFiles.trans {first second third : FileMerger} (one : SameFiles first second)
    (two : SameFiles second third) : SameFiles first third :=
  ⟨two.base_file_name_.trans one.base_file_name_,two.test_mode.trans one.test_mode,two.count.trans one.count⟩

variable (env : Platform)

theorem refill_files (m : FileMerger) (pool : Arena) (i : Nat) : SameFiles m (m.refill env pool i).1 := by
  refine ⟨?_,?_,refill_length m pool i⟩
  · unfold refill
    split <;> rfl
  · unfold refill
    split <;> rfl

theorem fill_files (indexes : List Nat) (s : FileMerger × Arena) :
    SameFiles s.1 (indexes.foldl (fill env) s).1 := by
  induction indexes generalizing s with
  | nil => exact .refl s.1
  | cons i rest ih =>
    rw [List.foldl_cons]
    apply SameFiles.trans _ (ih _)
    unfold fill
    split
    · exact .refl s.1
    · exact refill_files env s.1 s.2 i

theorem NextResultTuple_files (m : FileMerger) (pool : Arena) (res : ResultTuple) :
    SameFiles m (m.NextResultTuple env pool res).2.1 := by
  unfold NextResultTuple
  split
  · exact .refl m
  · rename_i top rest _
    dsimp only
    split
    · exact ⟨rfl,rfl,rfl⟩
    · have refilled := refill_files env
        {m with res_tuples_heap_ := env.queue.pop (StringLess pool.memory) (top :: rest)} pool top.file_index
      exact ⟨refilled.base_file_name_,refilled.test_mode,refilled.count⟩

theorem removed_files (disk : Disk) (file : Bytes) (k : Nat) (name : Bytes) :
    (List.range k).foldl (fun disk i => Function.update disk (OutputFileName file i) none) disk name =
      if ∃ i < k, name = OutputFileName file i then none else disk name := by
  induction k with
  | zero => simp
  | succ k ih =>
    rw [List.range_succ,List.foldl_append,List.foldl_cons,List.foldl_nil]
    by_cases last : name = OutputFileName file k
    · rw [last,Function.update_self,if_pos ⟨k,Nat.lt_succ_self k,rfl⟩]
    · rw [Function.update_of_ne last,ih]
      congr 1
      apply propext
      constructor
      · rintro ⟨i,bound,same⟩
        exact ⟨i,bound.trans (Nat.lt_succ_self k),same⟩
      · rintro ⟨i,bound,same⟩
        refine ⟨i,Nat.lt_of_le_of_ne (Nat.le_of_lt_succ bound) ?_,same⟩
        rintro rfl
        exact last same

end FileMerger

namespace TopNFreqUrls
variable (env : Env)

structure Merges (before after : TopNFreqUrls) : Prop where
  disk : after.disk = before.disk
  files : FileMerger.SameFiles before.file_merger_ after.file_merger_

theorem Merges.refl (self : TopNFreqUrls) : Merges self self := ⟨rfl,.refl _⟩

theorem Merges.trans {first second third : TopNFreqUrls} (one : Merges first second)
    (two : Merges second third) : Merges first third :=
  ⟨two.disk.trans one.disk,one.files.trans two.files⟩

theorem body_merges (b : MergeState) : Merges b.self (MergeSort.body env b).self := by
  unfold MergeSort.body
  split
  · exact .refl _
  · split
    · exact ⟨rfl,.refl _⟩
    · exact ⟨rfl,.refl _⟩

theorem merge_step_merges (s next : MergeState) (again : MergeSort.step env s = some next) :
    Merges s.self next.self := by
  have files := FileMerger.NextResultTuple_files env.toPlatform s.self.file_merger_ s.self.arena s.next_tuple
  unfold MergeSort.step at again
  split at again
  · cases again
  · split at again <;> rename_i m arena top found <;> rw [found] at files <;> cases again
    · exact ⟨rfl,files⟩
    · have delivered : Merges s.self {s.self with file_merger_ := m, arena} := ⟨rfl,files⟩
      exact delivered.trans (body_merges env {s with
        self := {s.self with file_merger_ := m, arena}
        next_tuple := top
        taken := s.taken ++ [(top.str.toString arena.memory,top.cnt,top.file_index)]})

theorem merge_head_merges (self : TopNFreqUrls) (n : Nat) :
    Merges (MergeSort.start env self).self (MergeSort.head env self n).self := by
  refine loop_invariant (MergeSort.step env) (fun s => Merges (MergeSort.start env self).self s.self) ?_ _ (.refl _) n
  intro s next merges again
  exact merges.trans (merge_step_merges env s next again)

theorem UpdateHeap_merges (self : TopNFreqUrls) (tuple : ResultTuple) (heap : List ResultTuple) :
    Merges self (self.UpdateHeap env tuple heap).1 := ⟨rfl,.refl _⟩

/-- The second stage removes the files that it has opened, and touches no other. -/
theorem MergeSort_disk (self : TopNFreqUrls) (file : Bytes) (merger : self.file_merger_ = .new file) (name : Bytes) :
    (self.MergeSort env).2.1.disk name =
      if ∃ i < self.file_mgr_.output_files_, name = OutputFileName file i then none else self.disk name := by
  have opened : FileMerger.SameFiles (unread env self file) (MergeSort.start env self).self.file_merger_ := by
    unfold MergeSort.start
    rw [Open_unread env self file merger]
    exact FileMerger.fill_files env.toPlatform (List.range self.file_mgr_.TotalOutputFiles)
      (unread env self file,self.arena)
  have merged := merge_head_merges env self (MergeSort.rounds (MergeSort.start env self))
  unfold MergeSort
  generalize MergeSort.head env self (MergeSort.rounds (MergeSort.start env self)) = s at merged
  have last : Merges (MergeSort.start env self).self
      (if s.curr_tuple.IsEmpty then (s.self,s.topN_tuples) else s.self.UpdateHeap env s.curr_tuple s.topN_tuples).1 := by
    split
    · exact merged
    · exact merged.trans (UpdateHeap_merges env _ _ _)
  unfold MergeSort.finish
  generalize (if s.curr_tuple.IsEmpty then (s.self,s.topN_tuples) else
    s.self.UpdateHeap env s.curr_tuple s.topN_tuples) = settled at last
  have files := opened.trans last.files
  have disk : settled.1.disk = self.disk := last.disk
  have closed : (settled.1.file_merger_.Close settled.1.disk).2 name =
      if ∃ i < self.file_mgr_.output_files_, name = OutputFileName file i then none else self.disk name := by
    rw [FileMerger.Close,files.test_mode,files.base_file_name_,files.count,disk]
    simp only [unread,FileMerger.new,Bool.false_eq_true,if_false,List.length_map,List.length_range]
    exact FileMerger.removed_files self.disk file _ name
  dsimp only
  split <;> exact closed

/-! ## A whole run -/

theorem Batching.wrote {start now : TopNFreqUrls} {urls : List StringVal} {pending : List Bytes}
    {batches : List (List Bytes)} {spilled : List (List (Bytes × Int32))}
    (batching : Batching start now urls pending batches spilled) (touched : Touched start now) :
    now.file_mgr_.output_files_ = batches.length ∧
      Wrote start.disk start.file_mgr_.file_name_ batches now.disk := by
  have length : spilled.length = batches.length := by rw [batching.exact,List.length_map]
  refine ⟨batching.files.trans length,⟨?_,?_⟩⟩
  · intro i batch found
    have bound := (List.getElem?_eq_some_iff.mp found).1
    rw [batching.disk i (length ▸ bound),batching.exact,List.getD_eq_getElem?_getD,List.getElem?_map,found]
    rfl
  · intro name other
    apply touched.disk
    intro i _ bound
    apply other
    rwa [← length,← batching.files]

/-- What a run does to the files: each batch creates one file, and no later batch
writes to it; the merger opens these files; in the end they are gone, and every
other file is as it was. -/
structure Footprint (batches : List (List Bytes)) (start spilled final : TopNFreqUrls) : Prop where
  names : ∀ i, OutputFileName start.file_mgr_.file_name_ i ≠ start.file_mgr_.file_name_ ∧
    ∀ j, i ≠ j → OutputFileName start.file_mgr_.file_name_ i ≠ OutputFileName start.file_mgr_.file_name_ j
  heads : ∀ n s, s = PartialSort.head env start n →
    Wrote start.disk start.file_mgr_.file_name_ (batches.take s.self.file_mgr_.output_files_) s.self.disk
  rounds : ∀ n s next, s = PartialSort.head env start n → PartialSort.step env s = some next →
    Touched s.self next.self ∧ next.self.file_mgr_.output_files_ ≤ s.self.file_mgr_.output_files_ + 1
  last : ∃ n s, s = PartialSort.head env start n ∧ spilled = (PartialSort.finish env s).2 ∧
    Touched s.self spilled ∧ spilled.file_mgr_.output_files_ ≤ s.self.file_mgr_.output_files_ + 1
  count : spilled.file_mgr_.output_files_ = batches.length
  written : Wrote start.disk start.file_mgr_.file_name_ batches spilled.disk
  opened : (spilled.file_merger_.OpenInternal env spilled.disk spilled.file_mgr_.TotalOutputFiles).sorted_files_ =
    (List.range batches.length).map (FileMerger.openSpill env spilled.disk start.file_mgr_.file_name_)
  removed : ∀ name, final.disk name =
    if ∃ i < batches.length, name = OutputFileName start.file_mgr_.file_name_ i then none else start.disk name

def Delivers (batches : List (List Bytes)) (streams : Nat → IStream) : Prop :=
  ∀ i batch, batches[i]? = some batch → ∀ pool calls, (batchRows batch).length < calls →
    readRows env.toPlatform calls (streams i) pool = batchRows batch

theorem delivers_iff {batches : List (List Bytes)} (sound : ∀ batch ∈ batches, ∀ url ∈ batch,
      1 ≤ url.length ∧ url.length < MAX_URL_LEN) (streams : Nat → IStream)
    (texts : ∀ i batch, batches[i]? = some batch → Holds (streams i) ((batchRows batch).flatMap rowBytes)) :
    Delivers env batches streams ↔ TabFree batches := by
  constructor
  · intro delivers batch inside url _ tabbed
    by_contra occurs
    obtain ⟨i,found⟩ := List.mem_iff_getElem?.mp inside
    obtain ⟨r,member,rfl⟩ := List.mem_map.mp ((mem_batchRows batch url).mpr occurs)
    have same := delivers i batch found (Arena.new 0) _ (Nat.lt_succ_self _)
    rw [← same] at member
    exact readRows_clean env.toPlatform _ _ _ r member tabbed
  · intro clean i batch found pool calls enough
    apply readRows_text env.toPlatform _ _ _ (rowText_flatMap _) _ (texts i batch found) pool calls enough
    intro r member
    have inside := List.mem_of_getElem? found
    have occurs := (mem_batchRows batch r.1).mp (List.mem_map_of_mem member)
    have url : r.1 ∈ batch := by
      by_contra absent
      exact occurs (by rw [List.count_eq_zero_of_not_mem absent,Nat.zero_mod])
    obtain ⟨positive,short⟩ := sound batch inside r.1 url
    exact ⟨List.length_pos_iff.mp positive,short,fun tabbed => occurs (clean batch inside r.1 url tabbed)⟩

variable (disk : Disk) (file content : Bytes) (num_results : Int32) (mem_limit : UInt64)

theorem head_wrote (low : 1024 ≤ mem_limit.toNat)
    (clear : ¬ Reported env (started env disk file content num_results mem_limit)) (n : Nat) (s : PartialState)
    (head : s = PartialSort.head env (started env disk file content num_results mem_limit) n) :
    Wrote disk file ((cut mem_limit [] (inputUrls env content)).take s.self.file_mgr_.output_files_)
      s.self.disk := by
  have state := head_state env _ (fresh_started env disk file content num_results mem_limit low) n
  have touched := head_frame env (started env disk file content num_results mem_limit) 0 n (Nat.zero_le n)
  rw [← head] at state touched
  rcases state with ⟨_,fault⟩ | ⟨_,batches,spilled,_,_,batching⟩
  · exact absurd fault clear
  obtain ⟨files,wrote⟩ := batching.wrote touched
  have cutting : cut mem_limit [] (inputUrls env content) = batches ++ _ := batching.cutting
  rw [files,cutting,List.take_left]
  exact wrote

section Passed
variable {env disk file content num_results mem_limit} {spilled : TopNFreqUrls}

theorem passed_batches (present : disk file = some content) (low : 1024 ≤ mem_limit.toNat)
    (passed : (TopNFreqUrls.new file num_results mem_limit disk).PartialSort env = (true,spilled)) :
    ¬ Reported env (started env disk file content num_results mem_limit) ∧ ∃ rows,
      Batching (started env disk file content num_results mem_limit) spilled [] []
        (cut mem_limit [] (inputUrls env content)) rows := by
  have input := opened_of_passed env disk file num_results mem_limit spilled passed
  rcases PartialSort_new env disk file content num_results mem_limit input present low with
    ⟨failed,_⟩ | ⟨_,clear,batches,rows,_,batching⟩
  · rw [passed] at failed
    cases failed
  · rw [passed] at batching
    have cutting := batching.cutting
    rw [List.map_nil,cut,if_pos rfl,List.append_nil] at cutting
    have same : cut mem_limit [] (inputUrls env content) = batches := cutting
    exact ⟨clear,rows,same ▸ batching⟩

/-- A run keeps to its files, whatever the rows are. -/
theorem run_footprint (present : disk file = some content) (low : 1024 ≤ mem_limit.toNat)
    (passed : (TopNFreqUrls.new file num_results mem_limit disk).PartialSort env = (true,spilled)) :
    Footprint env (cut mem_limit [] (inputUrls env content)) (started env disk file content num_results mem_limit)
      spilled ((TopNFreqUrls.new file num_results mem_limit disk).Run env).2 := by
  have input := opened_of_passed env disk file num_results mem_limit spilled passed
  obtain ⟨clear,rows,batching⟩ := passed_batches present low passed
  have finished := PartialSort_started env disk file content num_results mem_limit input present
  rw [passed] at finished
  generalize (started env disk file content num_results mem_limit).file_mgr_.in_.after.length + 1 = n at finished
  have last := finish_frame env (PartialSort.head env (started env disk file content num_results mem_limit) n)
  rw [← finished] at last
  have rounds := head_frame env (started env disk file content num_results mem_limit) 0 n (Nat.zero_le n)
  obtain ⟨count,wrote⟩ := batching.wrote (rounds.trans last.1)
  have merger : spilled.file_merger_ = .new file := batching.file_merger_
  refine ⟨?_,head_wrote env disk file content num_results mem_limit low clear,
    fun n s next _ again => step_frame env s next again,⟨_,_,rfl,congrArg Prod.snd finished,last⟩,count,wrote,?_,?_⟩
  · intro i
    refine ⟨?_,fun j different => OutputFileName_ne file i j different⟩
    intro same
    have equal : OutputFileName file i = file := same
    have longer := OutputFileName_length file i
    rw [equal] at longer
    exact Nat.lt_irrefl _ longer
  · rw [FileMerger.OpenInternal_files,merger,TotalOutputFiles,count]
    rfl
  · intro name
    have merged := MergeSort_disk env spilled file merger name
    simp only [Run,passed]
    rw [merged,count]
    by_cases created : ∃ i < (cut mem_limit [] (inputUrls env content)).length, name = OutputFileName file i
    · rw [if_pos created]
      exact (if_pos created).symm
    · rw [if_neg created]
      apply Eq.trans _ (if_neg created).symm
      apply wrote.others
      intro i bound same
      exact created ⟨i,bound,same⟩

theorem spill_texts (opens : ∀ i, env.faults.openSpill i = false) (reads : ∀ i, env.faults.readSpill i = none)
    {batches : List (List Bytes)} {later : Disk} (wrote : Wrote disk file batches later) (i : Nat) (batch : List Bytes)
    (found : batches[i]? = some batch) :
    Holds (FileMerger.openSpill env later file i) ((batchRows batch).flatMap rowBytes) := by
  rw [FileMerger.openSpill,opens i,reads i,if_neg Bool.false_ne_true,wrote.files i batch found]
  exact holds_opened _

end Passed
end TopNFreqUrls

open TopNFreqUrls

/-- A run creates, reads and removes its spill files and no other, and the rows
come back from them exactly if no URL of a row holds a tab. -/
theorem footprint_iff_tab_free (env : Env) (disk : Disk) (file content : Bytes) (present : disk file = some content)
    (num_results : Int32) (mem_limit : UInt64) (low : 1024 ≤ mem_limit.toNat)
    (opens : ∀ i, env.faults.openSpill i = false) (reads : ∀ i, env.faults.readSpill i = none)
    (spilled : TopNFreqUrls)
    (passed : (TopNFreqUrls.new file num_results mem_limit disk).PartialSort env = (true,spilled)) :
    Footprint env (cut mem_limit [] (inputUrls env content)) (started env disk file content num_results mem_limit)
        spilled ((TopNFreqUrls.new file num_results mem_limit disk).Run env).2 ∧
      Delivers env (cut mem_limit [] (inputUrls env content)) (FileMerger.openSpill env spilled.disk file) ↔
    TabFree (cut mem_limit [] (inputUrls env content)) := by
  obtain ⟨_,rows,batching⟩ := passed_batches present low passed
  have footprint := run_footprint present low passed
  have bounds (batch : List Bytes) (inside : batch ∈ cut mem_limit [] (inputUrls env content)) (url : Bytes)
      (member : url ∈ batch) : 1 ≤ url.length ∧ url.length < MAX_URL_LEN := by
    have read : inputUrls env content = (cut mem_limit [] (inputUrls env content)).flatten :=
      batching.read.trans (by simp)
    have among : url ∈ inputUrls env content := by
      rw [read]
      exact List.mem_flatten.mpr ⟨batch,inside,member⟩
    obtain ⟨positive,short,_⟩ := urlsOf_bounds _ url among
    exact ⟨positive,short⟩
  rw [and_iff_right footprint]
  exact delivers_iff env bounds _ (spill_texts opens reads footprint.written)

/-- The line `a`, tab, `b`: the row comes back as `a` with the count 0. -/
theorem row_lost_by_tab :
    ∃ spilled, (TopNFreqUrls.new [105] 2 1024 (oneFile [97,9,98])).PartialSort Env.reference = (true,spilled) ∧
      ¬ (Footprint Env.reference (cut 1024 [] (inputUrls Env.reference [97,9,98]))
          (started Env.reference (oneFile [97,9,98]) [105] [97,9,98] 2 1024) spilled
          ((TopNFreqUrls.new [105] 2 1024 (oneFile [97,9,98])).Run Env.reference).2 ∧
        Delivers Env.reference (cut 1024 [] (inputUrls Env.reference [97,9,98]))
          (FileMerger.openSpill Env.reference spilled.disk [105])) := by
  obtain ⟨passed,_⟩ := PartialSort_sound Env.reference (oneFile [97,9,98]) [105] [97,9,98] 2 1024
    Env.reference_sound (Function.update_self ..) (by decide)
  refine ⟨_,Prod.ext passed rfl,?_⟩
  rintro ⟨_,delivers⟩
  have same := delivers 0 [[97,9,98]] (by decide +kernel) (Arena.new 1024) 2 (by decide +kernel)
  revert same
  decide +kernel

/-- Four spill files of one row each. -/
theorem footprint_iff_tab_free_four :
    ∃ spilled, (TopNFreqUrls.new [105] 2 1024 (oneFile longLines)).PartialSort Env.reference = (true,spilled) ∧
      (Footprint Env.reference (cut 1024 [] (inputUrls Env.reference longLines))
          (started Env.reference (oneFile longLines) [105] longLines 2 1024) spilled
          ((TopNFreqUrls.new [105] 2 1024 (oneFile longLines)).Run Env.reference).2 ∧
        Delivers Env.reference (cut 1024 [] (inputUrls Env.reference longLines))
          (FileMerger.openSpill Env.reference spilled.disk [105])) := by
  have present : oneFile longLines [105] = some longLines := Function.update_self ..
  obtain ⟨spilled,passed⟩ := PartialSort_passes Env.reference (oneFile longLines) [105] longLines 2 1024
    Env.reference_sound present (by decide)
  refine ⟨spilled,passed,(footprint_iff_tab_free Env.reference (oneFile longLines) [105] longLines present 2 1024
    (by decide) (fun _ => rfl) (fun _ => rfl) spilled passed).mpr ?_⟩
  unfold TabFree
  decide +kernel

end TopNFreq
