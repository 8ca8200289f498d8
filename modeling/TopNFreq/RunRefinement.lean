import TopNFreq.StageRefinement
import TopNFreq.Footprint

/-! Both stages over any input, under any faults: what is printed is what the rows
that can be read from the spill files of the batches merge and join to. -/
namespace TopNFreq
open Library.Text Library.InputStream Library.Coalesce Library.Interleaving IStream FileManager

/-- The line printed for a result. -/
def resultLine (r : Bytes × Int32) : Bytes := r.1 ++ tab :: decimalInt r.2.toInt

theorem toString_view (mem : Memory) (t : ResultTuple) : t.toString mem = resultLine (t.view mem) := rfl

open TopNFreqUrls

/-- The program on the level of rows: the URLs are cut into batches, one file is written
for each, and the rows that can be read from the files are merged, joined and ranked. -/
inductive Outcome (env : Env) (content : Bytes) (limit : Nat) (mem_limit : UInt64) : Option (List Bytes) → Prop
  | failed (reported : FaultReported env content mem_limit) : Outcome env content limit mem_limit none
  | printed (files : Nat → List (Bytes × Int32)) (out : List (Nat × (Bytes × Int32)))
      (silent : ¬ FaultReported env content mem_limit)
      (read : ∀ j batch, (cut mem_limit [] (inputUrls env content))[j]? = some batch →
        Readings (spillStream env.faults j batch) (files j))
      (outside : ∀ j, (cut mem_limit [] (inputUrls env content)).length ≤ j → files j = [])
      (merged : Merged rowBefore files out fun _ => []) :
      Outcome env content limit mem_limit
        (some ((bestRows limit (joinRows (out.map Prod.snd))).map resultLine))

namespace TopNFreqUrls
variable {env : Env} {disk : Disk} {file content : Bytes} {num_results : Int32} {mem_limit : UInt64}

theorem passed_of_silent (num_results : Int32) (present : disk file = some content) (low : 1024 ≤ mem_limit.toNat)
    (silent : ¬ FaultReported env content mem_limit) :
    ∃ spilled, (TopNFreqUrls.new file num_results mem_limit disk).PartialSort env = (true,spilled) ∧
      Batching (started env disk file content num_results mem_limit) spilled [] []
        (cut mem_limit [] (inputUrls env content)) ((cut mem_limit [] (inputUrls env content)).map batchRows) := by
  obtain ⟨spilled,passed,_⟩ := PartialSort_passed env num_results present low silent
  obtain ⟨_,rows,batching⟩ := passed_batches present low passed
  exact ⟨spilled,passed,batching.exact ▸ batching⟩

theorem Batching.openSpill {start spilled : TopNFreqUrls} {batches : List (List Bytes)}
    (batching : Batching start spilled [] [] batches (batches.map batchRows)) (j : Nat) (batch : List Bytes)
    (found : batches[j]? = some batch) :
    FileMerger.openSpill env spilled.disk start.file_mgr_.file_name_ j = spillStream env.faults j batch := by
  apply openSpill_batch
  have written := batching.disk j (by
    rw [List.length_map]
    exact (List.getElem?_eq_some_iff.mp found).1)
  rwa [List.getD_eq_getElem?_getD,List.getElem?_map,found] at written

theorem Batching.total {start spilled : TopNFreqUrls} {batches : List (List Bytes)}
    (batching : Batching start spilled [] [] batches (batches.map batchRows)) :
    spilled.file_mgr_.TotalOutputFiles = batches.length := by
  rw [TotalOutputFiles,batching.files,List.length_map]

end TopNFreqUrls

theorem silent_of_sound {env : Env} (sound : env.faults = Faults.none) (content : Bytes) (mem_limit : UInt64) :
    ¬ FaultReported env content mem_limit := by
  simp [FaultReported,FaultMet,sound,Faults.none]

theorem limit_positive (file : Bytes) (num_results : Int32) (mem_limit : UInt64) (disk : Disk)
    (positive : 1 ≤ num_results.toInt) :
    (TopNFreqUrls.new file num_results mem_limit disk).limit = num_results.toInt.toNat := by
  have number := limit_exact (TopNFreqUrls.new file num_results mem_limit disk) positive
  change ((TopNFreqUrls.new file num_results mem_limit disk).limit : Int) = num_results.toInt at number
  omega

/-- A run over any input under any faults does what the program does on rows. -/
theorem run_outcome (env : Env) (disk : Disk) (file content : Bytes) (present : disk file = some content)
    (num_results : Int32) (mem_limit : UInt64) (low : 1024 ≤ mem_limit.toNat) :
    Outcome env content (TopNFreqUrls.new file num_results mem_limit disk).limit mem_limit
      ((TopNFreqUrls.new file num_results mem_limit disk).Run env).1 := by
  by_cases reported : FaultReported env content mem_limit
  · have failed := PartialSort_reported env num_results present low reported
    rw [Run_failed env _ failed]
    exact .failed reported
  · obtain ⟨spilled,passed,batching⟩ := passed_of_silent num_results present low reported
    have merger : spilled.file_merger_ = .new file := batching.file_merger_
    have limit : spilled.limit = (TopNFreqUrls.new file num_results mem_limit disk).limit := by
      rw [limit,limit,batching.num_results_]
      rfl
    obtain ⟨final,results,lost,files,run,readings,outside,merged,concluded,_⟩ :=
      @MergeSort_concluded env spilled _ (merger ▸ FileMerger.prepared_new file _) batching.owns
    have printed : ((TopNFreqUrls.new file num_results mem_limit disk).Run env).1 =
        some ((bestRows spilled.limit (joinRows ((mergedRows env spilled).map Entry.row))).map resultLine) := by
      rw [← concluded.views,List.map_map]
      simp only [Run,passed,run]
      exact congrArg some (List.map_congr_left fun t _ => toString_view _ t)
    have rows : (mergedRows env spilled).map Entry.row = ((mergedRows env spilled).map Entry.tag).map Prod.snd := by
      rw [List.map_map]
      rfl
    rw [batching.total] at readings outside
    rw [printed,limit,rows]
    refine .printed files _ reported (fun j batch found => ?_) outside merged
    have bound := (List.getElem?_eq_some_iff.mp found).1
    have read := readings j bound
    rw [List.getD_eq_getElem?_getD,List.getElem?_map,List.getElem?_range bound] at read
    exact batching.openSpill j batch found ▸ read

section Exact
variable {env : Env} {content : Bytes} {limit : Nat} {mem_limit : UInt64} {answer : Option (List Bytes)}

theorem urlLe_of_not_before (a b : Bytes × Int32) (notBefore : ¬ rowBefore b a) : urlLe a b :=
  urlLe_order.coarser a b (not_lt.mp notBefore)

/-- Where every batch is read back as it was written, the results are the best of what
the URLs count modulo 2^32. -/
theorem Outcome.exact (outcome : Outcome env content limit mem_limit answer)
    (silent : ¬ FaultReported env content mem_limit)
    (whole : ∀ j batch rows, (cut mem_limit [] (inputUrls env content))[j]? = some batch →
      Readings (spillStream env.faults j batch) rows → rows = batchRows batch) :
    answer = some ((bestRows limit (wrapped (cut mem_limit [] (inputUrls env content)).flatten)).map resultLine) := by
  cases outcome with
  | failed reported => exact absurd reported silent
  | printed files out _ read outside merged =>
    have batch (j : Nat) (bound : j < (cut mem_limit [] (inputUrls env content)).length) :
        files j = batchRows ((cut mem_limit [] (inputUrls env content)).getD j []) := by
      have found := List.getElem?_eq_getElem bound
      rw [List.getD_eq_getElem?_getD,found]
      exact whole j _ _ found (read j _ found)
    have rows : (List.range (cut mem_limit [] (inputUrls env content)).length).flatMap files =
        (cut mem_limit [] (inputUrls env content)).flatMap batchRows := by
      generalize cut mem_limit [] (inputUrls env content) = batches at batch
      calc (List.range batches.length).flatMap files
        _ = (List.range batches.length).flatMap fun j => batchRows (batches.getD j []) :=
          List.flatMap_congr fun j member => batch j (List.mem_range.mp member)
        _ = ((List.range batches.length).map fun j => batches.getD j []).flatMap batchRows := by rw [List.flatMap_map]
        _ = batches.flatMap batchRows := by
          congr 1
          refine List.ext_getElem (by simp) fun j _ bound => ?_
          simp [List.getD_eq_getElem?_getD,bound]
    have ascending : (out.map Prod.snd).Pairwise urlLe := by
      refine (merged.ordered urlLe_order.trans urlLe_of_not_before fun j => ?_).1
      by_cases bound : j < (cut mem_limit [] (inputUrls env content)).length
      · rw [batch j bound]
        exact batchRows_ascending _
      · rw [outside j (Nat.le_of_not_lt bound)]
        exact List.Pairwise.nil
    have all := merged.perm _ outside
    have nothing : (List.range (cut mem_limit [] (inputUrls env content)).length).flatMap
        (fun _ => ([] : List (Bytes × Int32))) = [] := by
      simp
    rw [rows,nothing,List.append_nil] at all
    have joins := joinRows_wrapped ascending (cut mem_limit [] (inputUrls env content)).flatten fun url => by
      rw [← total_perm url all,total_batches]
    rw [bestRows_perm limit joins]

theorem mem_of_row {batch : List Bytes} {r : Bytes × Int32} (member : r ∈ batchRows batch) : r.1 ∈ batch := by
  have occurs := (mem_batchRows batch r.1).mp (List.mem_map_of_mem member)
  by_contra absent
  exact occurs (by rw [List.count_eq_zero_of_not_mem absent,Nat.zero_mod])

/-- The rows of a batch without tabs are read back as they were written. -/
theorem readings_clean {batch : List Bytes} {rows : List (Bytes × Int32)}
    (bounds : ∀ url ∈ batch, 1 ≤ url.length ∧ url.length < MAX_URL_LEN) (clean : ∀ url ∈ batch, tab ∉ url)
    {in_ : IStream}
    (holds : Holds in_ ((batchRows batch).flatMap rowBytes)) (read : Readings in_ rows) : rows = batchRows batch := by
  apply Readings.text holds (rowText_flatMap _) _ read
  intro r member
  have url := mem_of_row member
  exact ⟨List.length_pos_iff.mp (bounds _ url).1,(bounds _ url).2,clean _ url⟩

end Exact

theorem cut_flatten (limit : UInt64) (batch urls : List Bytes) : (cut limit batch urls).flatten = batch ++ urls := by
  induction urls generalizing batch with
  | nil =>
    unfold cut
    split
    · rename_i empty
      rw [empty]
      rfl
    · simp
  | cons url urls ih =>
    unfold cut
    split
    · rw [List.flatten_cons,ih]
      rfl
    · rw [ih,List.append_assoc]
      rfl

theorem mem_input {limit : UInt64} {urls batch : List Bytes} (inside : batch ∈ cut limit [] urls) {url : Bytes}
    (member : url ∈ batch) : url ∈ urls := by
  rw [← List.nil_append urls,← cut_flatten limit]
  exact List.mem_flatten.mpr ⟨batch,inside,member⟩

/-- Where no URL holds a tab and the spill files can be read, every row comes back. -/
theorem Outcome.modulo {env : Env} {content : Bytes} {limit : Nat} {mem_limit : UInt64} {answer : Option (List Bytes)}
    (outcome : Outcome env content limit mem_limit answer) (silent : ¬ FaultReported env content mem_limit)
    (opens : ∀ j, env.faults.openSpill j = false) (reads : ∀ j, env.faults.readSpill j = none)
    (clean : ∀ url ∈ inputUrls env content, tab ∉ url) :
    answer = some ((bestRows limit (wrapped (inputUrls env content))).map resultLine) := by
  have all : (cut mem_limit [] (inputUrls env content)).flatten = inputUrls env content := cut_flatten mem_limit [] _
  rw [← all]
  refine outcome.exact silent fun j batch rows found read => ?_
  have input (url : Bytes) (member : url ∈ batch) : url ∈ inputUrls env content :=
    mem_input (List.mem_of_getElem? found) member
  refine readings_clean (fun url member => ?_) (fun url member => clean url (input url member)) ?_ read
  · obtain ⟨positive,short,_⟩ := urlsOf_bounds _ url (input url member)
    exact ⟨positive,short⟩
  · rw [spillStream,opens,reads,if_neg Bool.false_ne_true]
    exact holds_opened _

/-- Whatever the numbers of occurrences: where no URL holds a tab and the spill files
can be read, the results are the best URLs by their numbers modulo 2^32. -/
theorem run_exact_modulo (env : Env) (disk : Disk) (file content : Bytes) (present : disk file = some content)
    (num_results : Int32) (positive : 1 ≤ num_results.toInt) (mem_limit : UInt64) (low : 1024 ≤ mem_limit.toNat)
    (silent : ¬ FaultReported env content mem_limit) (opens : ∀ j, env.faults.openSpill j = false)
    (reads : ∀ j, env.faults.readSpill j = none) (clean : ∀ url ∈ inputUrls env content, tab ∉ url) :
    ((TopNFreqUrls.new file num_results mem_limit disk).Run env).1 =
      some ((bestRows num_results.toInt.toNat (wrapped (inputUrls env content))).map resultLine) := by
  have outcome := run_outcome env disk file content present num_results mem_limit low
  rw [limit_positive file num_results mem_limit disk positive] at outcome
  exact outcome.modulo silent opens reads clean

/-- The device fails behind the third line. -/
theorem run_exact_modulo_two :
    ((TopNFreqUrls.new [105] 2 1024 (oneFile [97,10,99,10,97,10,98])).Run (Env.endLost none)).1 =
      some [[97,9,50],[99,9,49]] := by
  have clean : ∀ url ∈ inputUrls (Env.endLost none) [97,10,99,10,97,10,98], tab ∉ url := by
    decide +kernel
  refine (run_exact_modulo (Env.endLost none) _ [105] _ (Function.update_self ..) 2 (by decide) 1024 (by decide) ?_
    (fun _ => rfl) (fun _ => rfl) clean).trans (by decide +kernel)
  rintro (fault | ⟨_,_,fault⟩ | ⟨_,_,fault⟩)
  · cases fault
  · cases fault
  · cases fault

end TopNFreq
