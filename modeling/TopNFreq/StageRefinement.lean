import TopNFreq.Readings
import TopNFreq.RowJoins

/-! The second stage over files with any content: it merges what can be read from
them, joins the rows and keeps the best, and owns its strings all the while. -/
namespace TopNFreq
open Library.Text Library.InputStream Library.Loop Library.Selection Library.Interleaving IStream

/-- A row as the merge delivers it: after the number of its file. -/
def Entry.tag (e : Entry) : Nat × (Bytes × Int32) := (e.2.2,e.row)

namespace TopNFreqUrls
variable (env : Env)

/-- The loop variables stand for the rows joined so far. -/
structure Represents (mem : Memory) (limit : Nat) (curr_tuple : ResultTuple) (topN_tuples : List ResultTuple)
    (runs : Runs) : Prop where
  cnt : curr_tuple.cnt = runs.cnt
  url : curr_tuple.IsEmpty = false → curr_tuple.str.toString mem = runs.url
  heaped : env.queue.IsHeap (ResultTuple.less mem) topN_tuples
  selects : Selects limit (runs.rows.map rowRank) (topN_tuples.map (ResultTuple.rank mem))

section Represented
variable {env} {mem : Memory} {limit : Nat} {curr_tuple : ResultTuple} {topN_tuples : List ResultTuple} {runs : Runs}

theorem Represents.congr (represents : Represents env mem limit curr_tuple topN_tuples runs) (other : Memory)
    (frame : ∀ v ∈ holders curr_tuple topN_tuples, other v.ptr = mem v.ptr) :
    Represents env other limit curr_tuple topN_tuples runs := by
  have frameTop : ∀ t ∈ topN_tuples, other t.str.ptr = mem t.str.ptr := fun t member =>
    frame t.str (List.mem_append_right _ (List.mem_map_of_mem member))
  refine ⟨represents.cnt,fun counting => ?_,?_,?_⟩
  · rw [StringVal.toString_congr (frame curr_tuple.str (by simp [holders,counting]))]
    exact represents.url counting
  · refine env.queue.isHeap_congr _ _ _ ?_ represents.heaped
    exact fun a memberA b memberB => (ResultTuple.less_congr (frameTop a memberA) (frameTop b memberB)).symm
  · have ranks : topN_tuples.map (ResultTuple.rank other) = topN_tuples.map (ResultTuple.rank mem) :=
      List.map_congr_left fun t member => ResultTuple.rank_congr (frameTop t member)
    exact ranks ▸ represents.selects

theorem Represents.bounded (represents : Represents env mem limit curr_tuple topN_tuples runs) :
    topN_tuples.length ≤ limit := by
  have size := represents.selects.size
  simp only [List.length_map] at size
  omega

theorem Represents.none_iff (represents : Represents env mem limit curr_tuple topN_tuples runs) :
    curr_tuple.IsEmpty = true ↔ runs.cnt = 0 := by
  rw [curr_tuple.isEmpty_iff,represents.cnt]

theorem Represents.some_iff (represents : Represents env mem limit curr_tuple topN_tuples runs) :
    curr_tuple.IsEmpty = false ↔ runs.cnt ≠ 0 := by
  rw [← Bool.not_eq_true]
  exact represents.none_iff.not

theorem Represents.run (represents : Represents env mem limit curr_tuple topN_tuples runs)
    (counting : curr_tuple.IsEmpty = false) : (runs.url,runs.cnt) = curr_tuple.view mem := by
  rw [ResultTuple.view,represents.url counting,represents.cnt]

end Represented

/-- The state in which `body` finds the variables: the pool holds the strings of the
heap, the next tuple, the current one and the best, and `lost` to which nothing refers. -/
structure Received (b : MergeState) (lost : List StringVal) (streams : Nat → IStream)
    (files : Nat → List (Bytes × Int32)) (runs : Runs) : Prop where
  ready : FileMerger.Ready env.toPlatform b.self.file_merger_ b.self.arena
    (b.next_tuple.str :: (holders b.curr_tuple b.topN_tuples ++ lost)) streams files
  represents : Represents env b.self.arena.memory b.self.limit b.curr_tuple b.topN_tuples runs

structure Joins (b after : MergeState) (lost : List StringVal) (streams : Nat → IStream)
    (files : Nat → List (Bytes × Int32)) (runs : Runs) : Prop where
  ready : FileMerger.Ready env.toPlatform after.self.file_merger_ after.self.arena
    (after.curr_tuple.str :: (after.topN_tuples.map ResultTuple.str ++ lost)) streams files
  heads : FileMerger.heads after.self.file_merger_ after.self.arena.memory =
    FileMerger.heads b.self.file_merger_ b.self.arena.memory
  represents : Represents env after.self.arena.memory b.self.limit after.curr_tuple after.topN_tuples
    (runs.join (b.next_tuple.view b.self.arena.memory))
  hits : b.self.arena.FreesHit → after.self.arena.FreesHit
  file_merger_ : after.self.file_merger_ = b.self.file_merger_
  num_results_ : after.self.num_results_ = b.self.num_results_
  taken : after.taken = b.taken
  finished : after.finished = b.finished

section Body
variable {env} {b : MergeState} {lost : List StringVal} {streams : Nat → IStream}
  {files : Nat → List (Bytes × Int32)} {runs : Runs}

private theorem Received.first (received : Received env b lost streams files runs)
    (empty : b.curr_tuple.IsEmpty = true) :
    Joins env b {b with curr_tuple := b.next_tuple} lost streams files runs := by
  have ready := received.ready
  simp only [holders,empty,if_true,List.nil_append] at ready
  refine ⟨ready,rfl,?_,id,rfl,rfl,rfl,rfl⟩
  rw [Runs.join,if_pos (received.represents.none_iff.mp empty)]
  exact ⟨rfl,fun _ => rfl,received.represents.heaped,received.represents.selects⟩

private theorem Received.again (received : Received env b lost streams files runs)
    (counting : b.curr_tuple.IsEmpty = false)
    (same : b.curr_tuple.str.toString b.self.arena.memory = b.next_tuple.str.toString b.self.arena.memory) :
    Joins env b {b with
      curr_tuple := {b.curr_tuple with cnt := b.curr_tuple.cnt + b.next_tuple.cnt}
      self := {b.self with arena := b.self.arena.Free b.next_tuple.str.ptr}} lost streams files runs := by
  obtain ⟨owns,frame⟩ := received.ready.owns.free List.perm_middle
  obtain ⟨ready,heads⟩ := received.ready.transfer _ _ owns fun t member =>
    frame t.str (List.mem_append_left _ (List.mem_map_of_mem member))
  have frameHolders : ∀ v ∈ holders b.curr_tuple b.topN_tuples,
      (b.self.arena.Free b.next_tuple.str.ptr).memory v.ptr = b.self.arena.memory v.ptr :=
    fun v member => frame v (List.mem_append_right _ (List.mem_append_left _ member))
  have represents := received.represents.congr _ frameHolders
  have url := received.represents.url counting
  simp only [holders,counting,Bool.false_eq_true,if_false,List.cons_append] at ready
  refine ⟨ready,heads,?_,fun hit => hit.free received.ready.owns _ (by simp),rfl,rfl,rfl,rfl⟩
  have joins : runs.join (b.next_tuple.view b.self.arena.memory) = {runs with cnt := runs.cnt + b.next_tuple.cnt} := by
    rw [Runs.join,if_neg (received.represents.some_iff.mp counting)]
    exact if_pos (url.symm.trans same)
  rw [joins]
  refine ⟨?_,fun _ => represents.url counting,represents.heaped,represents.selects⟩
  dsimp only
  rw [received.represents.cnt]

private theorem Received.change (received : Received env b lost streams files runs)
    (counting : b.curr_tuple.IsEmpty = false)
    (different : b.curr_tuple.str.toString b.self.arena.memory ≠ b.next_tuple.str.toString b.self.arena.memory)
    (arena : Arena) (kept : List ResultTuple)
    (updated : Updated env b.self b.curr_tuple b.topN_tuples
      (b.self.file_merger_.res_tuples_heap_.map ResultTuple.str ++ b.next_tuple.str :: lost) arena kept) :
    Joins env b {b with self := {b.self with arena}, topN_tuples := kept, curr_tuple := b.next_tuple}
      lost streams files runs := by
  have owns : arena.Owns (b.self.file_merger_.res_tuples_heap_.map ResultTuple.str ++
      b.next_tuple.str :: (kept.map ResultTuple.str ++ lost)) := by
    refine updated.owns.perm ?_
    rw [← List.append_assoc]
    refine (List.perm_append_comm.append_right _).trans ?_
    rw [List.append_assoc]
    exact List.perm_middle.append_left _
  obtain ⟨ready,heads⟩ := received.ready.transfer arena _ owns fun t member =>
    updated.frame t.str (List.mem_append_right _ (List.mem_append_left _ (List.mem_map_of_mem member)))
  have url := received.represents.url counting
  have frame := updated.frame b.next_tuple.str (by simp)
  refine ⟨ready,heads,?_,updated.hits,rfl,rfl,rfl,rfl⟩
  have joins : runs.join (b.next_tuple.view b.self.arena.memory) =
      ⟨runs.rows ++ [(runs.url,runs.cnt)],b.next_tuple.str.toString b.self.arena.memory,b.next_tuple.cnt⟩ := by
    rw [Runs.join,if_neg (received.represents.some_iff.mp counting)]
    exact if_neg (url ▸ different)
  rw [joins]
  refine ⟨rfl,fun _ => StringVal.toString_congr frame,updated.heaped,?_⟩
  have ranks : kept.map (ResultTuple.rank arena.memory) = kept.map (ResultTuple.rank b.self.arena.memory) :=
    List.map_congr_left fun t member => ResultTuple.rank_congr
      (updated.frame t.str (List.mem_append_left _ (List.mem_map_of_mem member)))
  have offered := updated.selects _ received.represents.selects
  dsimp only
  rw [ranks,received.represents.run counting,List.map_append]
  exact offered.offered_perm (List.perm_append_singleton _ _).symm

/-- Whatever row comes next, a round joins it. -/
theorem Received.body (received : Received env b lost streams files runs) :
    Joins env b (MergeSort.body env b) lost streams files runs := by
  unfold MergeSort.body
  cases counting : b.curr_tuple.IsEmpty with
  | true => exact received.first counting
  | false =>
    have owns := received.ready.owns
    simp only [holders,counting,Bool.false_eq_true,if_false] at owns
    have meaning := StringVal.StrEquals_iff b.self.arena.memory b.curr_tuple.str b.next_tuple.str
      (owns.stored _ (by simp)) (owns.stored _ (by simp))
    rw [if_neg Bool.false_ne_true,ResultTuple.StrEquals]
    by_cases equals : b.curr_tuple.str.StrEquals b.self.arena.memory b.next_tuple.str = true
    · rw [if_pos equals]
      exact received.again counting (meaning.mp equals)
    · have offered : b.self.arena.Owns (b.curr_tuple.str :: b.topN_tuples.map ResultTuple.str ++
          (b.self.file_merger_.res_tuples_heap_.map ResultTuple.str ++ b.next_tuple.str :: lost)) := by
        have swapped := (@List.perm_append_comm _ (b.self.file_merger_.res_tuples_heap_.map ResultTuple.str ++
          [b.next_tuple.str]) (b.curr_tuple.str :: b.topN_tuples.map ResultTuple.str)).append_right lost
        rw [List.append_assoc,List.append_assoc,List.append_assoc,List.append_assoc] at swapped
        exact owns.perm swapped
      obtain ⟨arena,kept,same,updated⟩ := UpdateHeap_updated env offered received.represents.heaped
        received.represents.bounded
      rw [if_neg equals,same]
      exact received.change counting (fun same => equals (meaning.mpr same)) arena kept updated

end Body

/-- The second stage at a head of its loop. A string is lost each time that the rows so
far have joined to a run of count 0. -/
structure StageAt (start : TopNFreqUrls) (streams : Nat → IStream) (k : Nat) (s : MergeState)
    (lost : List StringVal) (files : Nat → List (Bytes × Int32)) : Prop where
  ready : FileMerger.Ready env.toPlatform s.self.file_merger_ s.self.arena
    (holders s.curr_tuple s.topN_tuples ++ lost) streams files
  merged : Merged rowBefore files (s.taken.map Entry.tag)
    (FileMerger.heads s.self.file_merger_ s.self.arena.memory)
  represents : Represents env s.self.arena.memory s.self.limit s.curr_tuple s.topN_tuples
    (joined (s.taken.map Entry.row))
  vanished : lost.length = vanishing (s.taken.map Entry.row)
  hits : start.arena.FreesHit → s.self.arena.FreesHit
  files : s.self.file_merger_.sorted_files_.length = k
  num_results_ : s.self.num_results_ = start.num_results_
  drained : s.finished = true → s.self.file_merger_.res_tuples_heap_ = []

section Run
variable {env} {start : TopNFreqUrls} {streams : Nat → IStream} {k : Nat} {s next : MergeState}
  {lost : List StringVal} {files : Nat → List (Bytes × Int32)}

private def received (s : MergeState) (file_merger_ : FileMerger) (arena : Arena) (top : ResultTuple) : MergeState :=
  {s with
    self := {s.self with file_merger_, arena}
    next_tuple := top
    taken := s.taken ++ [top.entry arena.memory]}

private theorem StageAt.ended (at_ : StageAt env start streams k s lost files)
    (empty : s.self.file_merger_.res_tuples_heap_ = []) :
    StageAt env start streams k {s with finished := true} lost files :=
  ⟨at_.ready,at_.merged,at_.represents,at_.vanished,at_.hits,at_.files,at_.num_results_,fun _ => empty⟩

private theorem StageAt.receive (at_ : StageAt env start streams k s lost files) (going : s.finished = false)
    {after : FileMerger} {arena : Arena} {top : ResultTuple} {more : Nat → List (Bytes × Int32)}
    (ready : FileMerger.Ready env.toPlatform after arena (top.str :: (holders s.curr_tuple s.topN_tuples ++ lost))
      streams more)
    (merged : Merged rowBefore more (s.taken.map Entry.tag ++ [(top.file_index,top.view arena.memory)])
      (FileMerger.heads after arena.memory))
    (frame : ∀ v ∈ holders s.curr_tuple s.topN_tuples, arena.memory v.ptr = s.self.arena.memory v.ptr)
    (hits : s.self.arena.FreesHit → arena.FreesHit) (size : after.sorted_files_.length = k) :
    ∃ later, StageAt env start streams k (MergeSort.body env (received s after arena top)) later more := by
  have taking : Received env (received s after arena top) lost streams more (joined (s.taken.map Entry.row)) :=
    ⟨ready,at_.represents.congr arena.memory frame⟩
  have joins := taking.body
  have rows : (MergeSort.body env (received s after arena top)).taken.map Entry.row =
      s.taken.map Entry.row ++ [top.view arena.memory] := by
    rw [joins.taken,received,List.map_append]
    rfl
  have represents : Represents env (MergeSort.body env (received s after arena top)).self.arena.memory
      (MergeSort.body env (received s after arena top)).self.limit
      (MergeSort.body env (received s after arena top)).curr_tuple
      (MergeSort.body env (received s after arena top)).topN_tuples
      (joined ((MergeSort.body env (received s after arena top)).taken.map Entry.row)) := by
    rw [rows,joined_snoc,limit,joins.num_results_]
    exact joins.represents
  have delivered : Merged rowBefore more ((MergeSort.body env (received s after arena top)).taken.map Entry.tag)
      (FileMerger.heads (MergeSort.body env (received s after arena top)).self.file_merger_
        (MergeSort.body env (received s after arena top)).self.arena.memory) := by
    rw [joins.heads,joins.taken,received,List.map_append]
    exact merged
  have still : (MergeSort.body env (received s after arena top)).finished = true →
      (MergeSort.body env (received s after arena top)).self.file_merger_.res_tuples_heap_ = [] := by
    intro ended
    rw [joins.finished] at ended
    exact absurd (going.symm.trans ended) Bool.false_ne_true
  have number := joins.num_results_.trans at_.num_results_
  have long : (MergeSort.body env (received s after arena top)).self.file_merger_.sorted_files_.length = k := by
    rw [joins.file_merger_]
    exact size
  have frees := fun hit => joins.hits (hits (at_.hits hit))
  have owned := joins.ready
  generalize MergeSort.body env (received s after arena top) = b at rows represents delivered still number long frees owned
  cases counting : b.curr_tuple.IsEmpty with
  | true =>
    refine ⟨b.curr_tuple.str :: lost,⟨?_,delivered,represents,?_,frees,long,number,still⟩⟩
    · have moved := owned.owns.perm (List.perm_middle.symm.append_left
        (b.self.file_merger_.res_tuples_heap_.map ResultTuple.str))
      rw [holders,counting,if_pos rfl,List.nil_append]
      exact (owned.transfer b.self.arena _ moved fun _ _ => rfl).1
    · have zero := represents.none_iff.mp counting
      rw [rows] at zero ⊢
      rw [vanishing_snoc,if_pos zero,List.length_cons,at_.vanished]
  | false =>
    refine ⟨lost,⟨?_,delivered,represents,?_,frees,long,number,still⟩⟩
    · rw [holders,counting,if_neg Bool.false_ne_true,List.singleton_append,List.cons_append]
      exact owned
    · have nonzero := represents.some_iff.mp counting
      rw [rows] at nonzero ⊢
      rw [vanishing_snoc,if_neg nonzero,Nat.add_zero,at_.vanished]

/-- One step of the loop, over any content of the files. -/
theorem StageAt.step (at_ : StageAt env start streams k s lost files) (again : MergeSort.step env s = some next) :
    ∃ later more, StageAt env start streams k next later more := by
  cases going : s.finished with
  | true => simp [MergeSort.step,going] at again
  | false =>
    rw [MergeSort.step,if_neg (Bool.eq_false_iff.mp going)] at again
    cases shape : s.self.file_merger_.res_tuples_heap_ with
    | nil =>
      rw [FileMerger.NextResultTuple_empty _ _ _ shape] at again
      cases again
      exact ⟨lost,files,at_.ended shape⟩
    | cons top heap =>
      obtain ⟨after,arena,more,call,ready,merged,frame⟩ :=
        at_.ready.next at_.merged top heap shape s.next_tuple
      have hits := NextResultTuple_hits env.toPlatform s.self.file_merger_ s.self.arena s.next_tuple
      have size := FileMerger.NextResultTuple_length env.toPlatform s.self.file_merger_ s.self.arena s.next_tuple
      rw [call] at again hits size
      cases again
      have view : top.view s.self.arena.memory = top.view arena.memory := by
        rw [ResultTuple.view,ResultTuple.view,StringVal.toString_congr (frame top.str (by simp))]
      rw [view] at merged
      obtain ⟨later,stage⟩ := at_.receive going ready merged
        (fun v member => frame v (List.mem_cons_of_mem _ (List.mem_append_left _ member))) hits (size.trans at_.files)
      exact ⟨later,_,stage⟩

theorem stage_start {self : TopNFreqUrls} {opened : List IStream}
    (prepared : FileMerger.Prepared env self.disk self.file_merger_ self.file_mgr_.TotalOutputFiles opened)
    (owns : self.arena.Owns []) :
    ∃ files, StageAt env self (opened.getD · .unopened) self.file_mgr_.TotalOutputFiles (MergeSort.start env self) []
      files := by
  obtain ⟨files,ready,first,long⟩ := FileMerger.Open_reads prepared owns
  refine ⟨files,⟨?_,?_,⟨rfl,fun counting => ?_,env.queue.isHeap_nil _,selects_nil _⟩,rfl,
    fun hit => ?_,long,rfl,fun ended => Bool.noConfusion ended⟩⟩
  · exact ready
  · exact first ▸ .start
  · cases counting
  · change (self.file_merger_.Open env self.disk self.arena _).2.2.FreesHit
    rw [prepared.open_eq]
    exact fill_hits env.toPlatform _ _ hit

/-- At every head of the loop. -/
theorem stage_head {self : TopNFreqUrls} {opened : List IStream}
    (prepared : FileMerger.Prepared env self.disk self.file_merger_ self.file_mgr_.TotalOutputFiles opened)
    (owns : self.arena.Owns []) (n : Nat) :
    ∃ lost files, StageAt env self (opened.getD · .unopened) self.file_mgr_.TotalOutputFiles
      (MergeSort.head env self n) lost files := by
  refine loop_invariant (MergeSort.step env) (fun s => ∃ lost files, StageAt env self _ _ s lost files) ?_ _ ?_ n
  · intro s next stage again
    obtain ⟨lost,files,at_⟩ := stage
    exact at_.step again
  · obtain ⟨files,at_⟩ := stage_start prepared owns
    exact ⟨[],files,at_⟩

private theorem StageAt.offered (at_ : StageAt env start streams k s lost files) (ended : s.finished = true) :
    ∃ arena kept, (if s.curr_tuple.IsEmpty then (s.self,s.topN_tuples)
        else s.self.UpdateHeap env s.curr_tuple s.topN_tuples) = ({s.self with arena},kept) ∧
      arena.Owns (kept.map ResultTuple.str ++ lost) ∧ env.queue.IsHeap (ResultTuple.less arena.memory) kept ∧
      (start.arena.FreesHit → arena.FreesHit) ∧
      Selects s.self.limit ((joinRows (s.taken.map Entry.row)).map rowRank)
        (kept.map (ResultTuple.rank arena.memory)) := by
  have owns := at_.ready.owns
  rw [at_.drained ended,List.map_nil,List.nil_append] at owns
  have represents := at_.represents
  cases counting : s.curr_tuple.IsEmpty with
  | true =>
    simp only [holders,counting,if_true,List.nil_append] at owns
    refine ⟨s.self.arena,s.topN_tuples,rfl,owns,represents.heaped,at_.hits,?_⟩
    rw [joinRows,Runs.finish,if_pos (represents.none_iff.mp counting)]
    exact represents.selects
  | false =>
    simp only [holders,counting,Bool.false_eq_true,if_false,List.singleton_append] at owns
    obtain ⟨arena,kept,same,updated⟩ := UpdateHeap_updated env owns represents.heaped represents.bounded
    refine ⟨arena,kept,same,updated.owns,updated.heaped,fun hit => updated.hits (at_.hits hit),?_⟩
    have ranks : kept.map (ResultTuple.rank arena.memory) = kept.map (ResultTuple.rank s.self.arena.memory) :=
      List.map_congr_left fun t member => ResultTuple.rank_congr
        (updated.frame t.str (List.mem_append_left _ (List.mem_map_of_mem member)))
    rw [ranks,joinRows,Runs.finish,if_neg (represents.some_iff.mp counting),represents.run counting,List.map_append]
    exact (updated.selects _ represents.selects).offered_perm (List.perm_append_singleton _ _).symm

/-- What the second stage returns when it has merged `rows`: the pool holds the strings
of the results and those that are lost. -/
structure Concluded (start : TopNFreqUrls) (rows : List (Bytes × Int32)) (lost : List StringVal) (arena : Arena)
    (results : List ResultTuple) : Prop where
  owns : arena.Owns (results.map ResultTuple.str ++ lost)
  hits : start.arena.FreesHit → arena.FreesHit
  views : results.map (ResultTuple.view arena.memory) = bestRows start.limit (joinRows rows)

private theorem views_best {limit : Nat} {mem : Memory} {rows : List (Bytes × Int32)} {results : List ResultTuple}
    (ascending : (results.map (ResultTuple.rank mem)).Pairwise (· ≤ ·))
    (selects : Selects limit (rows.map rowRank) (results.map (ResultTuple.rank mem))) :
    results.map (ResultTuple.view mem) = bestRows limit rows := by
  have ranks : results.map (ResultTuple.rank mem) = (results.map (ResultTuple.view mem)).map rowRank := by
    rw [List.map_map]
    rfl
  refine List.map_injective_iff.mpr rowRank_injective ?_
  rw [← ranks,bestRows,List.map_take]
  exact selects.take ascending ((List.perm_insertionSort _ _).map _) (sorted_rowRanks rows)

theorem StageAt.finish (at_ : StageAt env start streams k s lost files) (ended : s.finished = true) :
    ∃ final results, MergeSort.finish env s = (true,final,results) ∧
      Concluded start (s.taken.map Entry.row) lost final.arena results := by
  obtain ⟨arena,kept,same,owns,heaped,hits,selects⟩ := at_.offered ended
  have limit : s.self.limit = start.limit := by rw [limit,limit,at_.num_results_]
  rw [limit] at selects
  unfold MergeSort.finish
  rw [same]
  cases kept with
  | nil => exact ⟨_,_,rfl,owns,hits,views_best List.Pairwise.nil selects⟩
  | cons best others =>
    obtain ⟨sorted,filled,perm,ascending⟩ := fillResults_sorted env arena.memory
      (List.replicate (best :: others).length default) (best :: others)
      (fun t member => owns.stored t.str (List.mem_append_left _ (List.mem_map_of_mem member))) heaped (by simp)
    rw [List.drop_of_length_le (by simp),List.append_nil] at filled
    refine ⟨_,_,rfl,?_⟩
    dsimp only
    rw [filled]
    exact ⟨owns.perm ((perm.symm.map _).append_right lost),hits,
      views_best ascending (selects.perm (perm.symm.map _))⟩

end Run

/-- The second stage over any streams merges what can be read from them, joins the
rows and returns the best. -/
theorem MergeSort_concluded {env : Env} {self : TopNFreqUrls} {opened : List IStream}
    (prepared : FileMerger.Prepared env self.disk self.file_merger_ self.file_mgr_.TotalOutputFiles opened)
    (owns : self.arena.Owns []) :
    ∃ final results lost files, self.MergeSort env = (true,final,results) ∧
      (∀ j < self.file_mgr_.TotalOutputFiles, Readings (opened.getD j .unopened) (files j)) ∧
      (∀ j, self.file_mgr_.TotalOutputFiles ≤ j → files j = []) ∧
      Merged rowBefore files ((mergedRows env self).map Entry.tag) (fun _ => []) ∧
      Concluded self ((mergedRows env self).map Entry.row) lost final.arena results ∧
      lost.length = vanishing ((mergedRows env self).map Entry.row) := by
  obtain ⟨lost,files,at_⟩ := stage_head prepared owns (MergeSort.rounds (MergeSort.start env self))
  have ended := @merge_ended env self
  obtain ⟨final,results,run,concluded⟩ := at_.finish ended
  obtain ⟨empty,readings⟩ := at_.ready.exhausted (at_.drained ended)
  have outside := at_.ready.outside
  rw [at_.files] at readings outside
  have merged := at_.merged
  rw [empty] at merged
  exact ⟨final,results,lost,files,run,readings,outside,merged,concluded,at_.vanished⟩

theorem StageAt.owners {env : Env} {start : TopNFreqUrls} {streams : Nat → IStream} {k : Nat} {s : MergeState}
    {lost : List StringVal} {files : Nat → List (Bytes × Int32)} (at_ : StageAt env start streams k s lost files) :
    s.self.arena.chunks.keys.Perm (referenced s ++ lost.map StringVal.ptr) := by
  have keys := at_.ready.owns.keys
  have pointers : (s.self.file_merger_.res_tuples_heap_.map ResultTuple.str ++
      (holders s.curr_tuple s.topN_tuples ++ lost)).map StringVal.ptr = referenced s ++ lost.map StringVal.ptr := by
    rw [referenced,holders,List.map_append,List.map_append,List.map_append,List.map_map,List.map_map]
    cases s.curr_tuple.IsEmpty <;> simp [Function.comp_def]
  rwa [pointers] at keys

end TopNFreqUrls

open TopNFreqUrls

/-- The second stage over spill files of any content, whichever of them can be opened
and however far they can be read: the rows that can be read are merged, each once and
in the order of its file, rows of one URL that meet are joined, and the best of what
comes out are the results. -/
theorem merge_stage_refines (env : Env) (self : TopNFreqUrls) (base_file_name : Bytes)
    (merger : self.file_merger_ = .new base_file_name) (owns : self.arena.Owns []) :
    ∃ final results files out, self.MergeSort env = (true,final,results) ∧
      (∀ j < self.file_mgr_.TotalOutputFiles,
        Readings (FileMerger.openSpill env self.disk base_file_name j) (files j)) ∧
      (∀ j, self.file_mgr_.TotalOutputFiles ≤ j → files j = []) ∧
      Merged rowBefore files out (fun _ => []) ∧
      results.map (ResultTuple.view final.arena.memory) = bestRows self.limit (joinRows (out.map Prod.snd)) := by
  have prepared : FileMerger.Prepared env self.disk self.file_merger_ self.file_mgr_.TotalOutputFiles _ :=
    merger ▸ FileMerger.prepared_new base_file_name _
  obtain ⟨final,results,lost,files,run,readings,outside,merged,concluded,_⟩ := MergeSort_concluded prepared owns
  refine ⟨final,results,files,_,run,fun j bound => ?_,outside,merged,?_⟩
  · have read := readings j bound
    simpa [List.getD_eq_getElem?_getD,bound] using read
  · rw [List.map_map]
    exact concluded.views

/-- A row of no URL, a count that is no number, a file that ends early, and two rows of
`a` whose counts add up to 0. -/
def corrupted : TopNFreqUrls :=
  {TopNFreqUrls.new [105] 2 1024 (fun name =>
      if name = FileManager.OutputFileName [105] 0 then some [97,9,50,10,98,9,120]
      else if name = FileManager.OutputFileName [105] 1 then some [9,9,97,9,45,50,10,99,9,49,10,100]
      else none) with
    file_mgr_ := {FileManager.new [105] with output_files_ := 3}}

theorem merge_stage_refines_corrupted :
    ∃ final results files out, corrupted.MergeSort Env.reference = (true,final,results) ∧
      (∀ j < 3, Readings (FileMerger.openSpill Env.reference corrupted.disk [105] j) (files j)) ∧
      Merged rowBefore files out (fun _ => []) ∧
      results.map (ResultTuple.view final.arena.memory) = bestRows 2 (joinRows (out.map Prod.snd)) := by
  obtain ⟨final,results,files,out,run,readings,_,merged,views⟩ :=
    merge_stage_refines Env.reference corrupted [105] rfl (Arena.Owns.empty 1024)
  exact ⟨final,results,files,out,run,readings,merged,views⟩

end TopNFreq
