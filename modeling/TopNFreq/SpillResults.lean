import TopNFreq.SpillStage

/-! What the first stage guarantees: it loses and invents no URL, and the pool,
the tracker and the batch stay in step. -/
namespace TopNFreq
open Library Library.Text Library.InputStream Library.Coalesce IStream

namespace TopNFreqUrls
variable (env : Env)

def started (env : Env) (disk : Disk) (file content : Bytes) (num_results : Int32) (mem_limit : UInt64) :
    TopNFreqUrls :=
  {TopNFreqUrls.new file num_results mem_limit disk with
    file_mgr_ := {FileManager.new file with in_ := .opened content env.faults.readInput}}

def inputUrls (env : Env) (content : Bytes) : List Bytes := urlsOf (.opened content env.faults.readInput)

/-- No operation of the first stage fails but for reads of the input. -/
structure SpillsSound (env : Env) : Prop where
  opens : env.faults.openInput = false
  creates : ∀ n, env.faults.createSpill n = false
  writes : ∀ n, env.faults.writeRow n = false

theorem SpillsSound.no_fault (sound : SpillsSound env) (start : TopNFreqUrls) : ¬ Reported env start := by
  rintro (⟨j,_,fault⟩ | ⟨n,_,fault⟩)
  · simp [sound.creates j] at fault
  · simp [sound.writes n] at fault

theorem SpillsSound.of_none {env : Env} (sound : env.faults = Faults.none) : SpillsSound env :=
  ⟨by rw [sound]; rfl,fun _ => by rw [sound]; rfl,fun _ => by rw [sound]; rfl⟩

theorem inputUrls_sound (sound : env.faults = Faults.none) (content : Bytes) :
    inputUrls env content = (linesOf content).flatMap chop := by
  rw [inputUrls,sound]
  exact urlsOf_holds _ content (holds_opened content)

variable (disk : Disk) (file content : Bytes) (num_results : Int32) (mem_limit : UInt64)

theorem fresh_started (limit : 1024 ≤ mem_limit.toNat) :
    Fresh (started env disk file content num_results mem_limit) :=
  ⟨Arena.Owns.empty mem_limit,limit,rfl,rfl,rfl,rfl⟩

theorem Open_started (opens : env.faults.openInput = false) (present : disk file = some content) :
    (TopNFreqUrls.new file num_results mem_limit disk).file_mgr_.Open env disk =
      (true,(started env disk file content num_results mem_limit).file_mgr_) := by
  simp only [TopNFreqUrls.new,FileManager.new,FileManager.Open,opens,Bool.false_eq_true,if_false,present,started]

theorem PartialSort_started (opens : env.faults.openInput = false) (present : disk file = some content) :
    (TopNFreqUrls.new file num_results mem_limit disk).PartialSort env =
      PartialSort.finish env (PartialSort.head env (started env disk file content num_results mem_limit)
        ((started env disk file content num_results mem_limit).file_mgr_.in_.after.length + 1)) := by
  unfold PartialSort
  rw [show (TopNFreqUrls.new file num_results mem_limit disk).disk = disk from rfl,
    Open_started env disk file content num_results mem_limit opens present]
  rfl

/-- The first stage reports a fault, or every URL has been spilled and the pool is empty. -/
theorem PartialSort_new (opens : env.faults.openInput = false) (present : disk file = some content)
    (limit : 1024 ≤ mem_limit.toNat) :
    ((TopNFreqUrls.new file num_results mem_limit disk).PartialSort env).1 = false ∧
        Reported env (started env disk file content num_results mem_limit) ∨
      ((TopNFreqUrls.new file num_results mem_limit disk).PartialSort env).1 = true ∧
        ¬ Reported env (started env disk file content num_results mem_limit) ∧ ∃ batches spilled,
        (∀ batch ∈ batches, Called env (started env disk file content num_results mem_limit) batch) ∧
        Batching (started env disk file content num_results mem_limit)
          ((TopNFreqUrls.new file num_results mem_limit disk).PartialSort env).2 [] [] batches spilled :=
  PartialSort_cases env (TopNFreqUrls.new file num_results mem_limit disk) _
    (Open_started env disk file content num_results mem_limit opens present)
    (fresh_started env disk file content num_results mem_limit limit)

theorem PartialSort_sound (sound : SpillsSound env) (present : disk file = some content)
    (limit : 1024 ≤ mem_limit.toNat) :
    ((TopNFreqUrls.new file num_results mem_limit disk).PartialSort env).1 = true ∧ ∃ batches spilled,
      (∀ batch ∈ batches, Called env (started env disk file content num_results mem_limit) batch) ∧
      Batching (started env disk file content num_results mem_limit)
        ((TopNFreqUrls.new file num_results mem_limit disk).PartialSort env).2 [] [] batches spilled := by
  rcases PartialSort_new env disk file content num_results mem_limit sound.opens present limit with
    ⟨_,fault⟩ | ⟨passed,_,found⟩
  · exact absurd fault (sound.no_fault env _)
  · exact ⟨passed,found⟩

theorem PartialSort_passes (sound : SpillsSound env) (present : disk file = some content)
    (limit : 1024 ≤ mem_limit.toNat) :
    ∃ spilled, (TopNFreqUrls.new file num_results mem_limit disk).PartialSort env = (true,spilled) :=
  ⟨_,Prod.ext (PartialSort_sound env disk file content num_results mem_limit sound present limit).1 rfl⟩

theorem count_batch_le (url : Bytes) (batches : List (List Bytes)) (batch : List Bytes)
    (member : batch ∈ batches) : batch.count url ≤ batches.flatten.count url :=
  (List.sublist_flatten_of_mem member).count_le url

theorem Batching.summaries {start now : TopNFreqUrls} {urls : List StringVal} {pending : List Bytes}
    {batches : List (List Bytes)} {spilled : List (List (Bytes × Int32))}
    (batching : Batching start now urls pending batches spilled)
    (small : ∀ url, batches.flatten.count url < 2^31) : List.Forall₂ Summary batches spilled := by
  refine (List.forall₂_and_left _ _ |>.mpr ⟨fun _ member => member,batching.rows⟩).imp ?_
  rintro batch rows ⟨member,summary⟩
  exact summary fun url => (count_batch_le url batches batch member).trans_lt (small url)

theorem spilled_batch {batches : List (List Bytes)} {spilled : List (List (Bytes × Int32))}
    (summaries : List.Forall₂ Summary batches spilled) (rows : List (Bytes × Int32)) (member : rows ∈ spilled) :
    ∃ batch ∈ batches, Summary batch rows := by
  induction summaries with
  | nil => cases member
  | cons summary _ ih =>
    rcases List.mem_cons.mp member with rfl | later
    · exact ⟨_,List.mem_cons_self,summary⟩
    · obtain ⟨batch,inside,found⟩ := ih later
      exact ⟨batch,List.mem_cons_of_mem _ inside,found⟩

theorem spilled_weight (url : Bytes) {batches : List (List Bytes)} {spilled : List (List (Bytes × Int32))}
    (summaries : List.Forall₂ Summary batches spilled) :
    weight url (spilled.flatten.map fun r => (r.1,r.2.toInt)) = batches.flatten.count url := by
  induction summaries with
  | nil => rfl
  | cons summary _ ih =>
    rw [List.flatten_cons,List.flatten_cons,List.map_append,weight_append,summary.weight,ih,List.count_append]
    norm_cast

theorem spilled_total {batches : List (List Bytes)} {spilled : List (List (Bytes × Int32))}
    (summaries : List.Forall₂ Summary batches spilled) :
    (spilled.flatten.map fun r => r.2.toInt).sum = batches.flatten.length := by
  induction summaries with
  | nil => rfl
  | cons summary _ ih =>
    rw [List.flatten_cons,List.flatten_cons,List.map_append,List.sum_append,summary.total,ih,List.length_append]
    norm_cast

end TopNFreqUrls

open TopNFreqUrls

def oneFile (content : Bytes) : Disk := Function.update (fun _ => none) [105] (some content)

/-- Of such lines no two fit in a pool of 1024 bytes. -/
def longLine (b : Byte) : Bytes := List.replicate 600 b

/-- The lines of `b` and `a`, a blank line, and the line of `c` twice, at last without a newline. -/
def longLines : Bytes :=
  longLine 98 ++ newline :: (longLine 97 ++ newline :: newline :: (longLine 99 ++ newline :: longLine 99))

theorem Env.reference_sound : SpillsSound Env.reference := ⟨rfl,fun _ => rfl,fun _ => rfl⟩

/-- The first stage loses and invents nothing: the input is cut into batches, and
every batch becomes a file with its URLs, ascending and with their counts. -/
theorem partial_sort_conserves (env : Env) (sound : SpillsSound env) (disk : Disk) (file content : Bytes)
    (present : disk file = some content) (num_results : Int32) (mem_limit : UInt64)
    (limit : 1024 ≤ mem_limit.toNat) (few : (inputUrls env content).length < 2^31) :
    ∃ result : TopNFreqUrls,
      (TopNFreqUrls.new file num_results mem_limit disk).PartialSort env = (true,result) ∧
      (∀ rows ∈ result.file_mgr_.handed, rows ≠ [] ∧ (rows.map Prod.fst).Pairwise (· < ·) ∧
        ∀ r ∈ rows, 1 ≤ r.2.toInt) ∧
      (∀ url, weight url (result.file_mgr_.handed.flatten.map fun r => (r.1,r.2.toInt)) =
        (inputUrls env content).count url) ∧
      (result.file_mgr_.handed.flatten.map fun r => r.2.toInt).sum = result.urls_scanned_.toNat ∧
      ∃ batches : List (List Bytes), batches.flatten = inputUrls env content ∧ (∀ batch ∈ batches, batch ≠ []) ∧
        List.Forall₂ Summary batches result.file_mgr_.handed ∧
        result.file_mgr_.TotalOutputFiles = batches.length := by
  obtain ⟨passed,batches,spilled,_,batching⟩ :=
    PartialSort_sound env disk file content num_results mem_limit sound present limit
  have read : inputUrls env content = batches.flatten := batching.read.trans (by simp)
  have small : ∀ url, batches.flatten.count url < 2^31 := fun url =>
    List.count_le_length.trans_lt (read ▸ few)
  have summaries := batching.summaries small
  have total : batches.flatten.length < 2^31 := read ▸ few
  refine ⟨_,Prod.ext passed rfl,?_,?_,?_,batches,read.symm,batching.nonempty,?_,?_⟩
  · rw [batching.handed]
    intro rows member
    obtain ⟨batch,inBatches,summary⟩ := spilled_batch summaries rows member
    refine ⟨?_,summary.ascending,summary.positive⟩
    rintro rfl
    obtain ⟨url,inside⟩ := List.exists_mem_of_ne_nil batch (batching.nonempty batch inBatches)
    simpa using summary.complete url inside
  · intro url
    rw [batching.handed,spilled_weight url summaries,read]
  · have scanned := batching.scanned
    rw [show (started env disk file content num_results mem_limit).urls_scanned_ = 0 from rfl,UInt64.zero_add,
      List.length_nil,Nat.add_zero] at scanned
    rw [batching.handed,spilled_total summaries,scanned,
      UInt64.toNat_ofNat_of_lt' (total.trans (by decide))]
  · exact batching.handed ▸ summaries
  · rw [FileManager.TotalOutputFiles,batching.files,summaries.length_eq]

/-- Every line is spilled on its own: two rows in two files make up the count of `c`. -/
theorem partial_sort_conserves_four : ∃ result : TopNFreqUrls,
    (TopNFreqUrls.new [105] 2 1024 (oneFile longLines)).PartialSort Env.reference = (true,result) ∧
    weight (longLine 99) (result.file_mgr_.handed.flatten.map fun r => (r.1,r.2.toInt)) = 2 ∧
    (result.file_mgr_.handed.flatten.map fun r => r.2.toInt).sum = result.urls_scanned_.toNat := by
  obtain ⟨result,run,_,weights,total,_⟩ := partial_sort_conserves Env.reference Env.reference_sound
    (oneFile longLines) [105] longLines (Function.update_self ..) 2 1024 (by decide) (by decide +kernel)
  exact ⟨result,run,(weights (longLine 99)).trans (by decide +kernel),total⟩

/-- The pool, the tracker and the batch stay in step at every head of the loop; so
a chunk is always found, a batch that is spilled is not empty, and in the end the
pool is. -/
theorem pool_in_step (env : Env) (sound : SpillsSound env) (disk : Disk) (file content : Bytes)
    (present : disk file = some content) (num_results : Int32) (mem_limit : UInt64)
    (low : 1024 ≤ mem_limit.toNat) (high : mem_limit.toNat ≤ 2^64 - 2^20) :
    (∀ n, ∀ s, s = PartialSort.head env (started env disk file content num_results mem_limit) n →
      s.self.arena.chunks.entries.Perm (s.urls.map StringVal.chunk) ∧
      (s.urls.map StringVal.ptr).Nodup ∧
      s.self.arena.mem_tracker_.current_size_.toNat = (s.urls.map StringVal.len).sum ∧
      ∀ in_ url, s.status = .running →
        FileManager.ReadLine s.self.file_mgr_.in_ MAX_URL_LEN newline = (in_,some url) →
        ((s.self.arena.TryAllocate env.toPlatform (UInt64.ofNat url.length)).1 = nullptr → s.urls ≠ []) ∧
        ∃ ptr self urls, (s.self.withInput in_).reserve env s.urls url.length = (true,ptr,self,urls) ∧
          ptr ≠ nullptr) ∧
    ∃ result : TopNFreqUrls,
      (TopNFreqUrls.new file num_results mem_limit disk).PartialSort env = (true,result) ∧
      result.arena.chunks.entries = [] ∧ result.arena.mem_tracker_.current_size_ = 0 := by
  constructor
  · rintro n s rfl
    have head := head_state env _ (fresh_started env disk file content num_results mem_limit low) n
    generalize PartialSort.head env (started env disk file content num_results mem_limit) n = s at head
    rcases head with ⟨_,fault⟩ | ⟨_,batches,spilled,_,clear,batching⟩
    · exact absurd fault (sound.no_fault env _)
    have total : (s.urls.map StringVal.len).sum ≤ mem_limit.toNat := by
      have bytes := (batching.capped (by
        show mem_limit.toNat + MAX_URL_LEN ≤ 2^64
        simp only [MAX_URL_LEN]
        omega)).bytes
      rwa [batching.owns.bytes] at bytes
    refine ⟨batching.owns.chunks,batching.owns.nodup,?_,?_⟩
    · rw [batching.owns.tracked]
      exact UInt64.toNat_ofNat_of_lt' (total.trans_lt mem_limit.toNat_lt)
    · intro in_ url running read
      obtain ⟨positive,short,_,_⟩ := ReadLine_url _ _ _ read
      have roomy : 1024 ≤ s.self.arena.mem_tracker_.max_size_.toNat := batching.limit ▸ low
      constructor
      · rintro null empty
        have owns := batching.owns
        rw [empty] at owns
        exact owns.room env.toPlatform url.length short roomy null
      · rw [if_pos running,urlsOf_some _ _ _ read] at batching
        rcases (batching.streams in_ s.self.file_mgr_.out_).take env clear low ⟨positive,short⟩ with
          ⟨_,fault⟩ | ⟨ptr,later,kept,more,files,same,given,_,_,_⟩
        · exact absurd fault (sound.no_fault env _)
        · exact ⟨ptr,later,kept,same,given⟩
  · obtain ⟨passed,batches,spilled,_,batching⟩ :=
      PartialSort_sound env disk file content num_results mem_limit sound present low
    exact ⟨_,Prod.ext passed rfl,List.perm_nil.mp batching.owns.chunks,batching.owns.tracked⟩

/-- At the second line, and at every later one, the pool is full and the batch in front is spilled. -/
theorem pool_in_step_four :
    (∀ n, ∀ s, s = PartialSort.head Env.reference
        (started Env.reference (oneFile longLines) [105] longLines 2 1024) n →
      s.self.arena.mem_tracker_.current_size_.toNat = (s.urls.map StringVal.len).sum) ∧
    ∃ result : TopNFreqUrls,
      (TopNFreqUrls.new [105] 2 1024 (oneFile longLines)).PartialSort Env.reference = (true,result) ∧
      result.arena.chunks.entries = [] ∧ result.arena.mem_tracker_.current_size_ = 0 := by
  obtain ⟨heads,final⟩ := pool_in_step Env.reference Env.reference_sound (oneFile longLines) [105] longLines
    (Function.update_self ..) 2 1024 (by decide) (by decide)
  exact ⟨fun n s head => (heads n s head).2.2.1,final⟩

end TopNFreq
