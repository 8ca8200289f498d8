import TopNFreq.Program
import TopNFreq.Batches
import TopNFreq.RowFormat
import TopNFreq.Library.Coalesce
import Mathlib.Algebra.BigOperators.Group.List.Lemmas
import Mathlib.Algebra.BigOperators.Ring.Finset
import Mathlib.Data.List.Dedup

/-! One spill: the run counting loop over the sorted URLs writes a row for every
URL of the batch, ascending and with its number of occurrences. -/
namespace TopNFreq
open Library Library.Text Library.Coalesce

/-- `rows` lists the URLs of a batch, ascending, with their numbers of occurrences. -/
structure Summary (batch : List Bytes) (rows : List (Bytes × Int32)) : Prop where
  ascending : (rows.map Prod.fst).Pairwise (· < ·)
  counts : ∀ r ∈ rows, r.2.toInt = batch.count r.1
  complete : ∀ url ∈ batch, url ∈ rows.map Prod.fst
  sound : ∀ r ∈ rows, r.1 ∈ batch

theorem Summary.perm {batch other : List Bytes} {rows : List (Bytes × Int32)} (summary : Summary batch rows)
    (same : batch.Perm other) : Summary other rows :=
  ⟨summary.ascending,fun r member => by rw [summary.counts r member,same.count_eq],
    fun url member => summary.complete url (same.mem_iff.mpr member),
    fun r member => same.mem_iff.mp (summary.sound r member)⟩

theorem Summary.positive {batch : List Bytes} {rows : List (Bytes × Int32)} (summary : Summary batch rows)
    (r : Bytes × Int32) (member : r ∈ rows) : 0 < r.2.toInt := by
  rw [summary.counts r member]
  exact_mod_cast List.count_pos_iff.mpr (summary.sound r member)

theorem Summary.weight {batch : List Bytes} {rows : List (Bytes × Int32)} (summary : Summary batch rows)
    (url : Bytes) : Coalesce.weight url (rows.map fun r => (r.1,r.2.toInt)) = batch.count url := by
  have keys : (rows.map fun r => (r.1,r.2.toInt)).map Prod.fst = rows.map Prod.fst := by
    rw [List.map_map]
    rfl
  by_cases present : url ∈ batch
  · obtain ⟨r,member,rfl⟩ := List.mem_map.mp (summary.complete url present)
    rw [← summary.counts r member]
    refine weight_of_mem _ ?_ (r.1,r.2.toInt) (List.mem_map_of_mem member)
    exact keys ▸ summary.ascending.imp ne_of_lt
  · rw [List.count_eq_zero_of_not_mem present]
    refine weight_absent url _ fun p member same => present ?_
    obtain ⟨r,inside,rfl⟩ := List.mem_map.mp member
    exact same ▸ summary.sound r inside

theorem Summary.total {batch : List Bytes} {rows : List (Bytes × Int32)} (summary : Summary batch rows) :
    (rows.map fun r => r.2.toInt).sum = batch.length := by
  have urls : (rows.map Prod.fst).Perm batch.dedup := by
    refine (List.perm_ext_iff_of_nodup (summary.ascending.imp ne_of_lt) (List.nodup_dedup _)).mpr fun url => ?_
    rw [List.mem_dedup]
    refine ⟨fun member => ?_,summary.complete url⟩
    obtain ⟨r,inside,rfl⟩ := List.mem_map.mp member
    exact summary.sound r inside
  have counts : rows.map (fun r => r.2.toInt) = (rows.map Prod.fst).map fun url => (batch.count url : Int) := by
    rw [List.map_map]
    exact List.map_congr_left fun r member => summary.counts r member
  have counted : (batch.dedup.map fun url => batch.count url).sum = batch.length := by
    convert List.sum_map_count_dedup_eq_length batch
    rfl
  rw [counts,(urls.map _).sum_eq,← counted,Nat.cast_list_sum,List.map_map]
  rfl

theorem toInt_add_exact (a b : Int32) (left : 0 ≤ a.toInt) (right : 0 ≤ b.toInt)
    (fits : a.toInt + b.toInt < 2^31) : (a + b).toInt = a.toInt + b.toInt := by
  rw [Int32.toInt_add]
  exact Int.bmod_eq_of_le (by omega) (by omega)

/-- The rows of the URLs counted so far and the tuple that is being counted. -/
structure Tally (mem : Memory) (urls : List StringVal) (rows : List (Bytes × Int32))
    (curr_tuple : ResultTuple) : Prop where
  closed : rows.map (fun r => (r.1,r.2.toInt)) =
    (coalesce (urls.map fun url => (url.toString mem,(1 : Int)))).closed
  current : (coalesce (urls.map fun url => (url.toString mem,(1 : Int)))).current =
    if curr_tuple.IsEmpty then none else some (curr_tuple.str.toString mem,curr_tuple.cnt.toInt)
  member : curr_tuple.IsEmpty = false → curr_tuple.str ∈ urls

section Tallying
variable {mem : Memory} {urls : List StringVal} {rows : List (Bytes × Int32)} {curr_tuple : ResultTuple}

theorem tally_start (empty : curr_tuple.IsEmpty = true) : Tally mem [] [] curr_tuple :=
  ⟨rfl,by simp [empty,Groups.empty],by simp [empty]⟩

private theorem Tally.first (tally : Tally mem urls rows curr_tuple) (url : StringVal)
    (empty : curr_tuple.IsEmpty = true) : Tally mem (urls ++ [url]) rows (curr_tuple.Init url) := by
  have none := tally.current
  rw [if_pos empty] at none
  have next : coalesce ((urls ++ [url]).map fun url => (url.toString mem,(1 : Int))) =
      ⟨(coalesce (urls.map fun url => (url.toString mem,(1 : Int)))).closed,some (url.toString mem,1)⟩ := by
    rw [List.map_append,List.map_cons,List.map_nil,coalesce_snoc,absorb,none]
  exact ⟨next ▸ tally.closed,by rw [next]; rfl,by simp⟩

private theorem Tally.again (tally : Tally mem urls rows curr_tuple) (url : StringVal)
    (counting : curr_tuple.IsEmpty = false) (same : curr_tuple.str.toString mem = url.toString mem)
    (exact : (curr_tuple.cnt + 1).toInt = curr_tuple.cnt.toInt + 1) (positive : 0 < curr_tuple.cnt.toInt) :
    Tally mem (urls ++ [url]) rows {curr_tuple with cnt := curr_tuple.cnt + 1} := by
  have some := tally.current
  rw [counting,if_neg Bool.false_ne_true] at some
  have next : coalesce ((urls ++ [url]).map fun url => (url.toString mem,(1 : Int))) =
      ⟨(coalesce (urls.map fun url => (url.toString mem,(1 : Int)))).closed,
        Option.some (curr_tuple.str.toString mem,curr_tuple.cnt.toInt + 1)⟩ := by
    rw [List.map_append,List.map_cons,List.map_nil,coalesce_snoc,absorb,some]
    simp only [same,if_true]
  have nonzero : curr_tuple.cnt + 1 ≠ 0 := by
    intro zero
    rw [zero,Int32.toInt_zero] at exact
    omega
  refine ⟨next ▸ tally.closed,?_,fun _ => List.mem_append_left _ (tally.member counting)⟩
  rw [next]
  simp [ResultTuple.IsEmpty,nonzero,exact]

private theorem Tally.change (tally : Tally mem urls rows curr_tuple) (url : StringVal)
    (counting : curr_tuple.IsEmpty = false) (different : curr_tuple.str.toString mem ≠ url.toString mem) :
    Tally mem (urls ++ [url]) (rows ++ [curr_tuple.view mem]) (curr_tuple.Init url) := by
  have some := tally.current
  rw [counting,if_neg Bool.false_ne_true] at some
  have next : coalesce ((urls ++ [url]).map fun url => (url.toString mem,(1 : Int))) =
      ⟨(coalesce (urls.map fun url => (url.toString mem,(1 : Int)))).closed ++
        [(curr_tuple.str.toString mem,curr_tuple.cnt.toInt)],Option.some (url.toString mem,1)⟩ := by
    rw [List.map_append,List.map_cons,List.map_nil,coalesce_snoc,absorb,some]
    simp only [if_neg different]
  refine ⟨?_,by rw [next]; rfl,by simp⟩
  rw [next,List.map_append,tally.closed]
  rfl

theorem Tally.exact (tally : Tally mem urls rows curr_tuple)
    (sorted : (urls.map (StringVal.toString mem)).Pairwise (· ≤ ·)) (counting : curr_tuple.IsEmpty = false) :
    curr_tuple.cnt.toInt = (urls.map (StringVal.toString mem)).count (curr_tuple.str.toString mem) ∧
      0 < curr_tuple.cnt.toInt := by
  have grouped := grouped_coalesce (urls.map fun url => (url.toString mem,(1 : Int)))
    (by simpa [List.map_map,Function.comp_def] using sorted)
  have current := tally.current
  rw [counting,if_neg Bool.false_ne_true] at current
  have weighed := grouped.weights (curr_tuple.str.toString mem,curr_tuple.cnt.toInt)
    (by simp [Groups.all,current])
  have ones : (urls.map fun url => (url.toString mem,(1 : Int))) =
      (urls.map (StringVal.toString mem)).map fun key => (key,(1 : Int)) := by simp
  rw [ones,weight_ones] at weighed
  have present := List.count_pos_iff.mpr (List.mem_map_of_mem (f := StringVal.toString mem)
    (tally.member counting))
  dsimp only at weighed
  exact ⟨weighed,by omega⟩

theorem Tally.counting (tally : Tally mem urls rows curr_tuple)
    (sorted : (urls.map (StringVal.toString mem)).Pairwise (· ≤ ·)) (nonempty : urls ≠ []) :
    curr_tuple.IsEmpty = false := by
  have grouped := grouped_coalesce (urls.map fun url => (url.toString mem,(1 : Int)))
    (by simpa [List.map_map,Function.comp_def] using sorted)
  have current := tally.current
  cases empty : curr_tuple.IsEmpty with
  | false => rfl
  | true =>
    rw [empty,if_pos rfl] at current
    exact absurd (List.map_eq_nil_iff.mp (grouped.opened current)) nonempty

private theorem Tally.summary (tally : Tally mem urls rows curr_tuple)
    (sorted : (urls.map (StringVal.toString mem)).Pairwise (· ≤ ·)) (all : List (Bytes × Int32))
    (last : all = rows ++ if curr_tuple.IsEmpty then [] else [curr_tuple.view mem]) :
    Summary (urls.map (StringVal.toString mem)) all := by
  let ones := urls.map fun url => (url.toString mem,(1 : Int))
  have grouped : Grouped ones (coalesce ones) :=
    grouped_coalesce ones (by simpa [ones,List.map_map,Function.comp_def] using sorted)
  have groups : all.map (fun r => (r.1,r.2.toInt)) = (coalesce ones).all := by
    rw [Groups.all,tally.current,last,List.map_append,tally.closed]
    cases curr_tuple.IsEmpty <;> rfl
  have keys : all.map Prod.fst = (coalesce ones).all.map Prod.fst := by
    rw [← groups,List.map_map]
    rfl
  have batch : ones.map Prod.fst = urls.map (StringVal.toString mem) := by
    simp [ones,List.map_map,Function.comp_def]
  have weights : ∀ url, weight url ones = (urls.map (StringVal.toString mem)).count url := by
    intro url
    rw [← weight_ones url (urls.map (StringVal.toString mem)),List.map_map]
    rfl
  have group : ∀ r ∈ all, (r.1,r.2.toInt) ∈ (coalesce ones).all := fun r member =>
    groups ▸ List.mem_map_of_mem (f := fun r : Bytes × Int32 => (r.1,r.2.toInt)) member
  refine ⟨keys ▸ grouped.ascending,?_,?_,?_⟩
  · exact fun r member => (grouped.weights _ (group r member)).trans (weights r.1)
  · intro url member
    rw [keys]
    rw [← batch] at member
    obtain ⟨p,inside,rfl⟩ := List.mem_map.mp member
    exact grouped.complete p inside
  · exact fun r member => batch ▸ grouped.sound _ (group r member)

end Tallying

namespace TopNFreqUrls
variable (env : Env)

structure SameButSpill (before after : TopNFreqUrls) : Prop where
  num_results_ : after.num_results_ = before.num_results_
  urls_scanned_ : after.urls_scanned_ = before.urls_scanned_
  file_merger_ : after.file_merger_ = before.file_merger_
  file_name_ : after.file_mgr_.file_name_ = before.file_mgr_.file_name_
  in_ : after.file_mgr_.in_ = before.file_mgr_.in_

/-- A spill file that `rows` have been written to; `start` is the state before it
was created. -/
structure Writing (start now : TopNFreqUrls) (rows : List (Bytes × Int32)) : Prop where
  frame : SameButSpill start now
  arena : now.arena = start.arena
  output_files_ : now.file_mgr_.output_files_ = start.file_mgr_.output_files_ + 1
  opened : now.file_mgr_.out_ =
    ⟨some (FileManager.OutputFileName start.file_mgr_.file_name_ start.file_mgr_.output_files_),false⟩
  disk : now.disk = Function.update start.disk
    (FileManager.OutputFileName start.file_mgr_.file_name_ start.file_mgr_.output_files_)
    (some (rows.flatMap rowBytes))
  handed : now.file_mgr_.handed = start.file_mgr_.handed ++ [rows]
  count : now.file_mgr_.rows = start.file_mgr_.rows + rows.length

@[simp] theorem appendLast_last {α : Type} (lists : List (List α)) (last : List α) (item : α) :
    appendLast (lists ++ [last]) item = lists ++ [last ++ [item]] := by
  induction lists with
  | nil => rfl
  | cons first rest ih =>
    cases rest with
    | nil => rfl
    | cons second rest => rw [List.cons_append,List.cons_append,appendLast,← List.cons_append,ih]; rfl

theorem writing_start (self : TopNFreqUrls) :
    (self.file_mgr_.NewOutputFile env self.disk).1 = false ∧
        env.faults.createSpill self.file_mgr_.output_files_ = true ∨
      env.faults.createSpill self.file_mgr_.output_files_ = false ∧
        (self.file_mgr_.NewOutputFile env self.disk).1 = true ∧
        Writing self {self with
          disk := (self.file_mgr_.NewOutputFile env self.disk).2.1
          file_mgr_ := (self.file_mgr_.NewOutputFile env self.disk).2.2} [] := by
  cases fault : env.faults.createSpill self.file_mgr_.output_files_ with
  | true => simp [FileManager.NewOutputFile,OStream.openFile,fault]
  | false =>
    simp only [FileManager.NewOutputFile,OStream.openFile,fault,Bool.false_eq_true,if_false,
      Bool.not_false,and_false,true_and,false_or]
    exact ⟨⟨rfl,rfl,rfl,rfl,rfl⟩,rfl,rfl,rfl,rfl,rfl,rfl⟩

theorem Writing.write {start self : TopNFreqUrls} {rows : List (Bytes × Int32)}
    (writing : Writing start self rows) (res : ResultTuple) :
    (self.write env res).1 = false ∧ env.faults.writeRow self.file_mgr_.rows = true ∨
      env.faults.writeRow self.file_mgr_.rows = false ∧ (self.write env res).1 = true ∧
        Writing start (self.write env res).2 (rows ++ [res.view start.arena.memory]) := by
  cases fault : env.faults.writeRow self.file_mgr_.rows with
  | true =>
    simp [TopNFreqUrls.write,FileManager.WriteResultTuple,fault,OStream.put]
  | false =>
    have present := congrFun writing.disk
      (FileManager.OutputFileName start.file_mgr_.file_name_ start.file_mgr_.output_files_)
    rw [Function.update_self] at present
    have written := WriteResultTuple_ok env self.arena.memory self.disk self.file_mgr_ res _ _ fault
      writing.opened present
    refine .inr ⟨rfl,by simp only [TopNFreqUrls.write,written],?_⟩
    simp only [TopNFreqUrls.write,written]
    refine ⟨⟨writing.frame.num_results_,writing.frame.urls_scanned_,writing.frame.file_merger_,
      writing.frame.file_name_,writing.frame.in_⟩,writing.arena,writing.output_files_,writing.opened,?_,?_,?_⟩
    · simp only [writing.disk,Function.update_idem,writing.arena,List.flatMap_append,List.flatMap_cons,
        List.flatMap_nil,List.append_nil]
    · simp only [writing.handed,writing.arena,appendLast_last]
    · rw [writing.count,List.length_append,List.length_singleton,Nat.add_assoc]

theorem countRuns_append (self : TopNFreqUrls) (curr_tuple : ResultTuple) (first second : List StringVal) :
    self.countRuns env curr_tuple (first ++ second) =
      match self.countRuns env curr_tuple first with
      | (false,self,curr_tuple) => (false,self,curr_tuple)
      | (true,self,curr_tuple) => self.countRuns env curr_tuple second := by
  induction first generalizing self curr_tuple with
  | nil => rfl
  | cons url rest ih =>
    simp only [List.cons_append,countRuns]
    split
    · exact ih _ _
    · split
      · exact ih _ _
      · split
        · rfl
        · exact ih _ _

structure Counting (mem : Memory) (urls : List StringVal) (curr_tuple : ResultTuple) (runs : Runs) : Prop where
  cnt : curr_tuple.cnt = runs.cnt
  url : curr_tuple.IsEmpty = false → curr_tuple.str.toString mem = runs.url
  member : curr_tuple.IsEmpty = false → curr_tuple.str ∈ urls

theorem Counting.view {mem : Memory} {urls : List StringVal} {curr_tuple : ResultTuple} {runs : Runs}
    (counting : Counting mem urls curr_tuple runs) (some : curr_tuple.IsEmpty = false) :
    curr_tuple.view mem = (runs.url,runs.cnt) := by
  rw [ResultTuple.view,counting.url some,counting.cnt]

theorem Counting.empty_iff {mem : Memory} {urls : List StringVal} {curr_tuple : ResultTuple} {runs : Runs}
    (counting : Counting mem urls curr_tuple runs) : curr_tuple.IsEmpty = true ↔ runs.cnt = 0 := by
  rw [ResultTuple.isEmpty_iff,counting.cnt]

theorem Counting.nonempty {mem : Memory} {urls : List StringVal} {curr_tuple : ResultTuple} {runs : Runs}
    (counting : Counting mem urls curr_tuple runs) (some : curr_tuple.IsEmpty = false) : runs.cnt ≠ 0 :=
  fun zero => by simp [counting.empty_iff.mpr zero] at some

def runsOf (mem : Memory) (urls : List StringVal) : Runs :=
  (urls.map (StringVal.toString mem)).foldl Runs.count Runs.start

theorem runsOf_snoc (mem : Memory) (urls : List StringVal) (url : StringVal) :
    runsOf mem (urls ++ [url]) = (runsOf mem urls).count (url.toString mem) := by
  simp [runsOf]

/-- The counting loop has been through `done`: the rows of all runs but the last are
in the file. -/
structure RunsWritten (start now : TopNFreqUrls) (done : List StringVal) (curr_tuple : ResultTuple) : Prop where
  clear : ∀ n < (runsOf start.arena.memory done).rows.length,
    env.faults.writeRow (start.file_mgr_.rows + n) = false
  writing : Writing start now (runsOf start.arena.memory done).rows
  counting : Counting start.arena.memory done curr_tuple (runsOf start.arena.memory done)
  tally : (∀ url, (done.map (StringVal.toString start.arena.memory)).count url < 2^31) →
    Tally start.arena.memory done (runsOf start.arena.memory done).rows curr_tuple

theorem runsWritten_start {start now : TopNFreqUrls} (writing : Writing start now []) {curr_tuple : ResultTuple}
    (empty : curr_tuple.IsEmpty = true) : RunsWritten env start now [] curr_tuple := by
  refine ⟨fun n bound => absurd bound (Nat.not_lt_zero n),writing,?_,fun _ => tally_start empty⟩
  have some (going : curr_tuple.IsEmpty = false) : False := by simp [empty] at going
  exact ⟨(ResultTuple.isEmpty_iff _).mp empty,fun going => (some going).elim,fun going => (some going).elim⟩

section Step
variable {env} {start now : TopNFreqUrls} {done : List StringVal} {curr_tuple : ResultTuple} {url : StringVal}

private theorem small_before {mem : Memory}
    (small : ∀ key, ((done ++ [url]).map (StringVal.toString mem)).count key < 2^31) (key : Bytes) :
    (done.map (StringVal.toString mem)).count key < 2^31 := by
  have bound := small key
  rw [List.map_append,List.count_append] at bound
  omega

private theorem RunsWritten.first (written : RunsWritten env start now done curr_tuple)
    (empty : curr_tuple.IsEmpty = true) : RunsWritten env start now (done ++ [url]) (curr_tuple.Init url) := by
  have next : runsOf start.arena.memory (done ++ [url]) =
      {runsOf start.arena.memory done with url := url.toString start.arena.memory, cnt := 1} := by
    rw [runsOf_snoc,Runs.count,if_pos (written.counting.empty_iff.mp empty)]
  refine ⟨?_,?_,?_,fun small => ?_⟩
  · rw [next]
    exact written.clear
  · rw [next]
    exact written.writing
  · rw [next]
    exact ⟨rfl,fun _ => rfl,fun _ => by simp⟩
  · rw [next]
    exact (written.tally (small_before small)).first url empty

private theorem RunsWritten.again (written : RunsWritten env start now done curr_tuple)
    (going : curr_tuple.IsEmpty = false)
    (sorted : (done.map (StringVal.toString start.arena.memory)).Pairwise (· ≤ ·))
    (same : curr_tuple.str.toString start.arena.memory = url.toString start.arena.memory) :
    RunsWritten env start now (done ++ [url]) {curr_tuple with cnt := curr_tuple.cnt + 1} := by
  have current := written.counting.url going
  have next : runsOf start.arena.memory (done ++ [url]) =
      {runsOf start.arena.memory done with cnt := (runsOf start.arena.memory done).cnt + 1} := by
    rw [runsOf_snoc,Runs.count,if_neg (written.counting.nonempty going),if_pos (current.symm.trans same)]
  refine ⟨?_,?_,?_,fun small => ?_⟩
  · rw [next]
    exact written.clear
  · rw [next]
    exact written.writing
  · rw [next]
    refine ⟨?_,fun _ => current,fun _ => List.mem_append_left _ (written.counting.member going)⟩
    rw [written.counting.cnt]
  · rw [next]
    have tally := written.tally (small_before small)
    obtain ⟨exact,positive⟩ := tally.exact sorted going
    have bound := small (url.toString start.arena.memory)
    rw [List.map_append,List.count_append,List.map_singleton,List.count_singleton_self] at bound
    rw [same] at exact
    refine tally.again url going same ?_ positive
    exact toInt_add_exact curr_tuple.cnt 1 positive.le (by decide) (by rw [exact,Int32.toInt_one]; omega)

/-- A fault stops the row of the current run, or it is in the file after the others. -/
private theorem RunsWritten.row (written : RunsWritten env start now done curr_tuple) :
    (now.write env curr_tuple).1 = false ∧
        (∃ n < ((runsOf start.arena.memory done).rows ++ [curr_tuple.view start.arena.memory]).length,
          env.faults.writeRow (start.file_mgr_.rows + n) = true) ∨
      (now.write env curr_tuple).1 = true ∧
        (∀ n < ((runsOf start.arena.memory done).rows ++ [curr_tuple.view start.arena.memory]).length,
          env.faults.writeRow (start.file_mgr_.rows + n) = false) ∧
        Writing start (now.write env curr_tuple).2
          ((runsOf start.arena.memory done).rows ++ [curr_tuple.view start.arena.memory]) := by
  rw [List.length_append,List.length_singleton]
  rcases written.writing.write env curr_tuple with ⟨failed,fault⟩ | ⟨sound,ok,writing⟩
  · exact .inl ⟨failed,_,Nat.lt_succ_self _,written.writing.count ▸ fault⟩
  · refine .inr ⟨ok,fun n bound => ?_,writing⟩
    rcases Nat.lt_succ_iff_lt_or_eq.mp bound with old | rfl
    · exact written.clear n old
    · exact written.writing.count ▸ sound

private theorem RunsWritten.change (written : RunsWritten env start now done curr_tuple)
    (going : curr_tuple.IsEmpty = false)
    (different : curr_tuple.str.toString start.arena.memory ≠ url.toString start.arena.memory) :
    (now.write env curr_tuple).1 = false ∧
        (∃ n < (runsOf start.arena.memory (done ++ [url])).rows.length,
          env.faults.writeRow (start.file_mgr_.rows + n) = true) ∨
      (now.write env curr_tuple).1 = true ∧
        RunsWritten env start (now.write env curr_tuple).2 (done ++ [url]) (curr_tuple.Init url) := by
  have current := written.counting.url going
  have next : runsOf start.arena.memory (done ++ [url]) =
      ⟨(runsOf start.arena.memory done).rows ++ [curr_tuple.view start.arena.memory],
        url.toString start.arena.memory,1⟩ := by
    rw [runsOf_snoc,Runs.count,if_neg (written.counting.nonempty going),if_neg (current ▸ different),
      written.counting.view going]
  rcases written.row with ⟨failed,fault⟩ | ⟨ok,clear,writing⟩
  · rw [next]
    exact .inl ⟨failed,fault⟩
  · refine .inr ⟨ok,?_,?_,?_,fun small => ?_⟩
    · rw [next]
      exact clear
    · rw [next]
      exact writing
    · rw [next]
      exact ⟨rfl,fun _ => rfl,fun _ => by simp⟩
    · rw [next]
      exact (written.tally (small_before small)).change url going different

/-- After the last row the file holds a summary of the URLs. -/
private theorem RunsWritten.finish (written : RunsWritten env start now done curr_tuple)
    (sorted : (done.map (StringVal.toString start.arena.memory)).Pairwise (· ≤ ·)) :
    (now.writeLast env curr_tuple).1 = false ∧
        (∃ n < (runsOf start.arena.memory done).finish.length,
          env.faults.writeRow (start.file_mgr_.rows + n) = true) ∨
      (now.writeLast env curr_tuple).1 = true ∧
        (∀ n < (runsOf start.arena.memory done).finish.length,
          env.faults.writeRow (start.file_mgr_.rows + n) = false) ∧
        Writing start (now.writeLast env curr_tuple).2 (runsOf start.arena.memory done).finish ∧
        ((∀ url, (done.map (StringVal.toString start.arena.memory)).count url < 2^31) →
          Summary (done.map (StringVal.toString start.arena.memory))
            (runsOf start.arena.memory done).finish) := by
  cases going : curr_tuple.IsEmpty with
  | true =>
    have all : (runsOf start.arena.memory done).finish = (runsOf start.arena.memory done).rows := by
      rw [Runs.finish,if_pos (written.counting.empty_iff.mp going)]
    rw [all]
    simp only [writeLast,going,if_true]
    exact .inr ⟨trivial,written.clear,written.writing,
      fun small => (written.tally small).summary sorted _ (by simp [going])⟩
  | false =>
    have all : (runsOf start.arena.memory done).finish =
        (runsOf start.arena.memory done).rows ++ [curr_tuple.view start.arena.memory] := by
      rw [Runs.finish,if_neg (written.counting.nonempty going),written.counting.view going]
    rw [all]
    simp only [writeLast,going,Bool.false_eq_true,if_false]
    rcases written.row with failed | ⟨ok,clear,writing⟩
    · exact .inl failed
    · exact .inr ⟨ok,clear,writing,
        fun small => (written.tally small).summary sorted _ (by simp [going])⟩

end Step

/-- The counting loop over sorted URLs, from the empty tuple: a write fails, or
the rows of all runs but the last are in the file. -/
theorem countRuns_rows {start self : TopNFreqUrls} (writing : Writing start self [])
    (curr_tuple : ResultTuple) (empty : curr_tuple.IsEmpty = true) (urls : List StringVal)
    (stored : ∀ url ∈ urls, Stored start.arena.memory url)
    (sorted : (urls.map (StringVal.toString start.arena.memory)).Pairwise (· ≤ ·)) :
    (self.countRuns env curr_tuple urls).1 = false ∧
        (∃ n < (runsOf start.arena.memory urls).rows.length,
          env.faults.writeRow (start.file_mgr_.rows + n) = true) ∨
      (self.countRuns env curr_tuple urls).1 = true ∧
        RunsWritten env start (self.countRuns env curr_tuple urls).2.1 urls
          (self.countRuns env curr_tuple urls).2.2 := by
  induction urls using List.reverseRecOn with
  | nil => exact .inr ⟨rfl,runsWritten_start env writing empty⟩
  | append_singleton done url ih =>
    have storedDone : ∀ v ∈ done, Stored start.arena.memory v := fun v member => stored v (by simp [member])
    rw [List.map_append,List.pairwise_append] at sorted
    have grows := Runs.count_rows (runsOf start.arena.memory done) (url.toString start.arena.memory)
    rw [← runsOf_snoc] at grows
    rw [countRuns_append]
    rcases ih storedDone sorted.1 with ⟨failed,n,bound,fault⟩ | ⟨passed,written⟩
    · rcases run : self.countRuns env curr_tuple done with ⟨_ | _,now,curr⟩
      · exact .inl ⟨rfl,n,bound.trans_le grows,fault⟩
      · simp [run] at failed
    rcases run : self.countRuns env curr_tuple done with ⟨_ | _,now,curr⟩
    · simp [run] at passed
    rw [run] at written
    dsimp only at written ⊢
    simp only [countRuns]
    cases going : curr.IsEmpty with
    | true => exact .inr ⟨rfl,written.first going⟩
    | false =>
      have meaning := StringVal.StrEquals_iff _ _ _ (storedDone _ (written.counting.member going))
        (stored url (by simp))
      simp only [Bool.false_eq_true,if_false]
      rw [written.writing.arena]
      cases equals : curr.str.StrEquals start.arena.memory url with
      | true => exact .inr ⟨rfl,written.again going sorted.1 (meaning.mp equals)⟩
      | false =>
        have different := meaning.not.mp (Bool.eq_false_iff.mp equals)
        simp only [Bool.false_eq_true,if_false]
        rcases written.change going different with ⟨failed,fault⟩ | ⟨ok,more⟩
        · rcases wrote : now.write env curr with ⟨_ | _,later⟩
          · exact .inl ⟨rfl,fault⟩
          · simp [wrote] at failed
        · rcases wrote : now.write env curr with ⟨_ | _,later⟩
          · simp [wrote] at ok
          · rw [wrote] at more
            exact .inr ⟨rfl,more⟩

theorem owns_freeAll (urls others : List StringVal) (arena : Arena) (owns : arena.Owns (urls ++ others)) :
    (urls.foldl (fun arena url => arena.Free url.ptr) arena).Owns others := by
  induction urls generalizing arena with
  | nil => exact owns
  | cons url rest ih => exact ih _ (owns.free (List.Perm.refl _)).1

theorem sorted_batch {self : TopNFreqUrls} {urls : List StringVal} (owns : self.arena.Owns urls) :
    (env.sorting.sort (StringVal.less self.arena.memory) urls).Perm urls ∧
      (∀ v ∈ env.sorting.sort (StringVal.less self.arena.memory) urls, Stored self.arena.memory v) ∧
      ((env.sorting.sort (StringVal.less self.arena.memory) urls).map
        (StringVal.toString self.arena.memory)).Pairwise (· ≤ ·) := by
  have order := less_strictWeak self.arena.memory urls owns.stored
  have perm := env.sorting.perm _ urls order
  have stored : ∀ v ∈ env.sorting.sort (StringVal.less self.arena.memory) urls, Stored self.arena.memory v :=
    fun v member => owns.stored v (perm.mem_iff.mp member)
  refine ⟨perm,stored,?_⟩
  rw [List.pairwise_map]
  refine List.Pairwise.imp_of_mem ?_ (env.sorting.sorted _ urls order)
  intro a b memberA memberB notLess
  apply not_lt.mp
  intro below
  apply Bool.eq_false_iff.mp notLess
  exact (StringVal.less_iff _ b a (stored b memberB) (stored a memberA)).mpr below

/-- A spill fails on a fault and says so, or writes a summary of the batch to the
next file and frees its strings. -/
theorem AggregateAndSpillToDisk_cases (self : TopNFreqUrls) (urls : List StringVal)
    (owns : self.arena.Owns urls) :
    (self.AggregateAndSpillToDisk env urls).1 = false ∧
        SpillMet env.faults self.file_mgr_.output_files_ self.file_mgr_.rows
          (batchRows (urls.map (StringVal.toString self.arena.memory))) ∨
      ¬ SpillMet env.faults self.file_mgr_.output_files_ self.file_mgr_.rows
          (batchRows (urls.map (StringVal.toString self.arena.memory))) ∧
      ∃ spilled sorted, self.AggregateAndSpillToDisk env urls = (true,spilled.freeAll sorted,[]) ∧
        sorted.Perm urls ∧ Writing self spilled (batchRows (urls.map (StringVal.toString self.arena.memory))) ∧
        ((∀ url, (urls.map (StringVal.toString self.arena.memory)).count url < 2^31) →
          Summary (urls.map (StringVal.toString self.arena.memory))
            (batchRows (urls.map (StringVal.toString self.arena.memory)))) := by
  obtain ⟨perm,stored,ascending⟩ := sorted_batch env owns
  unfold AggregateAndSpillToDisk
  rcases writing_start env self with ⟨failed,fault⟩ | ⟨creatable,ok,writing⟩
  · rcases created : self.file_mgr_.NewOutputFile env self.disk with ⟨_ | _,disk,mgr⟩
    · exact .inl ⟨rfl,.inl fault⟩
    · simp [created] at failed
  rcases created : self.file_mgr_.NewOutputFile env self.disk with ⟨_ | _,disk,mgr⟩
  · simp [created] at ok
  rw [created] at writing
  dsimp only at writing ⊢
  generalize env.sorting.sort (StringVal.less self.arena.memory) urls = sorted at perm stored ascending ⊢
  have strings := perm.map (StringVal.toString self.arena.memory)
  have rows : batchRows (urls.map (StringVal.toString self.arena.memory)) =
      (runsOf self.arena.memory sorted).finish := batchRows_sorted _ _ strings ascending
  rw [rows]
  rcases countRuns_rows env writing (env.uninit self.arena.requests).SetEmpty rfl sorted stored ascending
    with ⟨failed,n,bound,fault⟩ | ⟨passed,written⟩
  · rcases run : countRuns env {self with disk := disk, file_mgr_ := mgr}
        (env.uninit self.arena.requests).SetEmpty sorted with ⟨_ | _,now,curr⟩
    · exact .inl ⟨rfl,.inr ⟨n,bound.trans_le (Runs.rows_le_finish _),fault⟩⟩
    · simp [run] at failed
  rcases run : countRuns env {self with disk := disk, file_mgr_ := mgr}
      (env.uninit self.arena.requests).SetEmpty sorted with ⟨_ | _,now,curr⟩
  · simp [run] at passed
  rw [run] at written
  dsimp only at written ⊢
  rcases written.finish ascending with ⟨failed,fault⟩ | ⟨ok,clear,whole,summary⟩
  · rcases wrote : now.writeLast env curr with ⟨_ | _,later⟩
    · exact .inl ⟨rfl,.inr fault⟩
    · simp [wrote] at failed
  · rcases wrote : now.writeLast env curr with ⟨_ | _,later⟩
    · simp [wrote] at ok
    · rw [wrote] at whole
      refine .inr ⟨?_,later,sorted,rfl,perm,whole,fun small => ?_⟩
      · rintro (fault | ⟨n,bound,fault⟩)
        · simp [creatable] at fault
        · simp [clear n bound] at fault
      · exact (summary fun url => strings.count_eq url ▸ small url).perm strings

end TopNFreqUrls
end TopNFreq
