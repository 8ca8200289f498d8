import TopNFreq.MergeStage
import TopNFreq.SpillStage

/-! Both stages end on every input, also a corrupt one: a line that is read takes
bytes of its stream, and nothing gives bytes back. -/
namespace TopNFreq
open Library.Text Library.InputStream Library.Loop IStream FileManager

def fileSize (disk : Disk) (name : Bytes) : Nat := ((disk name).getD []).length

def spillSize (disk : Disk) (base_file_name : Bytes) (k : Nat) : Nat :=
  ((List.range k).map fun i => fileSize disk (OutputFileName base_file_name i)).sum

structure Advances (in_ : IStream) (max_len : Nat) (delimiter : Byte) : Prop where
  skipped : skipDelimiter delimiter (scanned in_ delimiter) = none
  takes : ∀ buffer, (ReadLine in_ max_len delimiter).2 = some buffer →
    1 ≤ buffer.length ∧ buffer.length ≤ max_len - 1 ∧
      (ReadLine in_ max_len delimiter).1.after.length < in_.after.length
  refused : in_.broken = false → (ReadLine in_ max_len delimiter).2 = none →
    (scanned in_ delimiter).c = delimiter

theorem ReadLine_advances (in_ : IStream) (max_len : Nat) (delimiter : Byte) (room : 2 ≤ max_len) :
    Advances in_ max_len delimiter := by
  refine ⟨scanned_ended in_ delimiter,?_,ReadLine_refused in_ max_len delimiter room⟩
  intro buffer read
  obtain ⟨positive,short,_,taken⟩ := ReadLine_some in_ max_len delimiter room buffer read
  exact ⟨positive,Nat.le_sub_one_of_lt short,taken⟩

theorem opened_size {disk : Disk} {name content : Bytes} {failing : Bool} (position : Option Nat)
    (found : (if failing then none else disk name) = some content) :
    (opened content position).after.length ≤ fileSize disk name := by
  have present : disk name = some content := by
    split at found
    · cases found
    · exact found
  rw [fileSize,present,Option.getD_some]
  cases position with
  | none => exact le_rfl
  | some position => exact List.length_take_le' position content

namespace FileMerger
variable (env : Env) (disk : Disk)

theorem openSpill_size (base_file_name : Bytes) (i : Nat) :
    (openSpill env disk base_file_name i).after.length ≤ fileSize disk (OutputFileName base_file_name i) := by
  unfold openSpill
  split
  · exact Nat.zero_le _
  · rename_i content found
    exact opened_size _ found

theorem fill_pending (indexes : List Nat) (s : FileMerger × Arena) :
    (indexes.foldl (fill env.toPlatform) s).1.pending ≤ s.1.pending := by
  induction indexes generalizing s with
  | nil => exact le_rfl
  | cons i rest ih =>
    rw [List.foldl_cons]
    apply (ih _).trans
    unfold fill
    split
    · exact le_rfl
    · exact refill_pending env.toPlatform s.1 s.2 i

/-- Right after `Open` no more rows can come than the files have bytes. -/
theorem Open_pending (base_file_name : Bytes) (pool : Arena) (k : Nat) :
    ((FileMerger.new base_file_name).Open env disk pool k).2.1.pending ≤
      spillSize disk base_file_name k := by
  rw [(prepared_new base_file_name k).open_eq pool]
  apply (fill_pending env _ _).trans
  simp only [spillSize,pending,FileMerger.new,List.length_nil,Nat.add_zero,List.map_map]
  apply List.sum_le_sum
  intro i _
  exact openSpill_size env disk base_file_name i

end FileMerger

namespace TopNFreqUrls
variable (env : Env)

/-- The body of the loop is entered: a URL has been read. -/
def PartialSort.Entered (s : PartialState) : Prop :=
  s.status = .running ∧ ∃ url, (ReadLine s.self.file_mgr_.in_ MAX_URL_LEN newline).2 = some url

def MergeSort.Entered (env : Env) (s : MergeState) : Prop :=
  s.finished = false ∧ (s.self.file_merger_.NextResultTuple env.toPlatform s.self.arena s.next_tuple).1 = true

def PartialSort.entry (env : Env) (self : TopNFreqUrls) : TopNFreqUrls :=
  {self with file_mgr_ := (self.file_mgr_.Open env self.disk).2}

/-- The loop ends in the rounds that `PartialSort` makes, and enters its body at most
as many times as the input has bytes. -/
structure FirstEnds (self : TopNFreqUrls) : Prop where
  ended : PartialSort.step env (PartialSort.head env (PartialSort.entry env self)
    ((PartialSort.entry env self).file_mgr_.in_.after.length + 1)) = none
  rounds : ∀ n, PartialSort.Entered (PartialSort.head env (PartialSort.entry env self) n) →
    n < fileSize self.disk self.file_mgr_.file_name_

/-- The loop ends in the rounds that `MergeSort` makes, the loops of `UpdateHeap` end,
and the rows delivered are at most as many as the files have bytes. -/
structure SecondEnds (self : TopNFreqUrls) : Prop where
  ended : MergeSort.step env (MergeSort.head env self (MergeSort.rounds (MergeSort.start env self))) = none
  evicted : ∀ limit arena heap, evict env limit (loop (evict env limit) heap.length (arena,heap)) = none
  rounds : ∀ n, MergeSort.Entered env (MergeSort.head env self n) →
    n < spillSize self.disk self.file_merger_.base_file_name_ self.file_mgr_.TotalOutputFiles

theorem Open_size (self : TopNFreqUrls) : (PartialSort.entry env self).file_mgr_.in_.after.length ≤
    fileSize self.disk self.file_mgr_.file_name_ := by
  unfold PartialSort.entry FileManager.Open
  split
  · exact Nat.zero_le _
  · rename_i content found
    exact opened_size _ found

theorem PartialSort.Entered.again {s : PartialState} (entered : PartialSort.Entered s) :
    PartialSort.step env s ≠ none := by
  obtain ⟨running,url,read⟩ := entered
  simp only [PartialSort.step,running]
  split
  · simp
  · split <;> simp

theorem firstEnds (self : TopNFreqUrls) : FirstEnds env self := by
  refine ⟨head_stopped env _,?_⟩
  intro n entered
  have spent := loop_measure (PartialSort.step env) PartialSort.toGo (PartialSort.step_nearer env)
    ⟨PartialSort.entry env self,[],.running⟩ n (entered.again env)
  have whole := Open_size env self
  obtain ⟨running,url,read⟩ := entered
  have taken := (ReadLine_some _ MAX_URL_LEN newline (by decide) url read).2.2.2
  change n + PartialSort.toGo (PartialSort.head env (PartialSort.entry env self) n) ≤ _ at spent
  simp only [PartialSort.toGo,running,if_true] at spent
  omega

theorem evict_ended (limit : Nat) (arena : Arena) (heap : List ResultTuple) :
    evict env limit (loop (evict env limit) heap.length (arena,heap)) = none := by
  apply loop_ends (evict env limit) (fun s => s.2.length)
  · rintro ⟨arena,heap⟩ next again
    unfold evict at again
    split at again
    · split at again
      · cases again
      · rename_i top rest shape
        cases again
        dsimp only at shape ⊢
        rw [(env.queue.pop_perm _ top rest).length_eq,shape]
        exact Nat.lt_succ_self _
    · cases again
  · rfl

theorem MergeSort.Entered.again {s : MergeState} (entered : MergeSort.Entered env s) :
    MergeSort.step env s ≠ none := by
  simp only [MergeSort.step,entered.1,Bool.false_eq_true,if_false]
  split <;> simp

theorem MergeSort.rounds_eq (s : MergeState) : MergeSort.rounds s = s.self.file_merger_.pending + 1 := rfl

theorem secondEnds (self : TopNFreqUrls) (base_file_name : Bytes)
    (merger : self.file_merger_ = FileMerger.new base_file_name) : SecondEnds env self := by
  refine ⟨?_,evict_ended env,?_⟩
  · rw [MergeSort.step,if_pos (merge_ended self)]
  · intro n entered
    have spent := loop_measure (MergeSort.step env) MergeSort.toGo MergeSort.step_nearer
      (MergeSort.start env self) n entered.again
    have whole : (MergeSort.start env self).self.file_merger_.pending ≤
        spillSize self.disk base_file_name self.file_mgr_.TotalOutputFiles := by
      rw [MergeSort.start,merger]
      exact FileMerger.Open_pending env self.disk base_file_name self.arena self.file_mgr_.TotalOutputFiles
    obtain ⟨going,delivered⟩ := entered
    have nearer := FileMerger.NextResultTuple_pending env.toPlatform _ _ _ delivered
    change n + MergeSort.toGo (MergeSort.head env self n) ≤ MergeSort.toGo (MergeSort.start env self) at spent
    have begun : MergeSort.toGo (MergeSort.start env self) = MergeSort.rounds (MergeSort.start env self) := rfl
    rw [begun,MergeSort.toGo,going,if_neg Bool.false_ne_true,MergeSort.rounds_eq,MergeSort.rounds_eq] at spent
    have named : self.file_merger_.base_file_name_ = base_file_name := by
      rw [merger]
      rfl
    rw [named]
    omega

end TopNFreqUrls

/-- Both stages end, whatever the bytes of the files and the faults of the devices. -/
theorem both_stages_terminate (env : Env) (self : TopNFreqUrls) (base_file_name : Bytes)
    (merger : self.file_merger_ = FileMerger.new base_file_name) :
    (∀ in_ max_len delimiter, 2 ≤ max_len → Advances in_ max_len delimiter) ∧
      self.FirstEnds env ∧ self.SecondEnds env :=
  ⟨ReadLine_advances,self.firstEnds env,self.secondEnds env base_file_name merger⟩

/-- `x\tz`, `\t\t` and `1` are no rows. -/
theorem both_stages_terminate_corrupt :
    let disk : Disk := fun name => if name = OutputFileName [102] 0 then some [120,9,122]
      else if name = OutputFileName [102] 1 then some [9,9]
      else if name = OutputFileName [102] 2 then some [49] else none
    let self : TopNFreqUrls := {TopNFreqUrls.new [102] 3 1024 disk with
      file_mgr_ := {FileManager.new [102] with output_files_ := 3}}
    spillSize disk [102] 3 = 6 ∧ self.SecondEnds Env.reference :=
  ⟨by decide,(both_stages_terminate Env.reference _ [102] rfl).2.2⟩

end TopNFreq
