import TopNFreq.EndToEnd
import TopNFreq.MemoryCap

/-! The counts are 32-bit numbers. They are exact in every loop of both stages
just when no URL of the input occurs too often. -/
namespace TopNFreq
open Library Library.Text Library.InputStream Library.Loop Library.Coalesce IStream

namespace TopNFreqUrls
variable (env : Env)

def created (env : Env) (self : TopNFreqUrls) : TopNFreqUrls :=
  {self with
    disk := (self.file_mgr_.NewOutputFile env self.disk).2.1
    file_mgr_ := (self.file_mgr_.NewOutputFile env self.disk).2.2}

def countedTuple (env : Env) (self : TopNFreqUrls) (done : List StringVal) : ResultTuple :=
  ((created env self).countRuns env (env.uninit self.arena.requests).SetEmpty done).2.2

/-- Wherever the counting loop of a spill stands, its count is that of the URL so
far, and it is not taken for the empty tuple. -/
def CountedExactly (env : Env) (self : TopNFreqUrls) (urls : List StringVal) : Prop :=
  ∀ done rest, env.sorting.sort (StringVal.less self.arena.memory) urls = done ++ rest → done ≠ [] →
    (countedTuple env self done).IsEmpty = false ∧
    (countedTuple env self done).cnt.toInt = (done.map (StringVal.toString self.arena.memory)).count
      ((countedTuple env self done).str.toString self.arena.memory)

def JoinedExactly (s : MergeState) : Prop :=
  s.taken ≠ [] → s.curr_tuple.IsEmpty = false ∧
    s.curr_tuple.cnt.toInt = weight (s.curr_tuple.str.toString s.self.arena.memory) (counted s.taken)

/-- The counts of a run are exact: in every spill, and at every head of the loop that
merges the rows that have been spilled, each taken once at most. -/
structure CountsExact (env : Env) (start spilled : TopNFreqUrls) : Prop where
  counting : ∀ n self urls, SpillCall env (PartialSort.head env start n) self urls → CountedExactly env self urls
  joining : ∀ n, JoinedExactly (MergeSort.head env spilled n)
  rows : ∀ n, (MergeSort.head env spilled n).taken.Subperm
    (allRows spilled.file_mgr_.handed.length fun i => spilled.file_mgr_.handed.getD i [])

section Counting
variable {env} {self : TopNFreqUrls} {urls : List StringVal}

private theorem counting_part (sound : SpillsSound env) (owns : self.arena.Owns urls) (done rest : List StringVal)
    (parts : env.sorting.sort (StringVal.less self.arena.memory) urls = done ++ rest) :
    (done.map (StringVal.toString self.arena.memory)).Pairwise (· ≤ ·) ∧
      Counting self.arena.memory done (countedTuple env self done) (runsOf self.arena.memory done) ∧
      ((∀ url, (done.map (StringVal.toString self.arena.memory)).count url < 2^31) →
        Tally self.arena.memory done (runsOf self.arena.memory done).rows (countedTuple env self done)) := by
  obtain ⟨_,stored,ascending⟩ := sorted_batch env owns
  rw [parts] at stored ascending
  rw [List.map_append] at ascending
  have ordered := (List.pairwise_append.mp ascending).1
  have writing : Writing self (created env self) [] := by
    rcases writing_start env self with ⟨_,fault⟩ | ⟨_,_,writing⟩
    · rw [sound.creates] at fault
      cases fault
    · exact writing
  rcases countRuns_rows env writing (env.uninit self.arena.requests).SetEmpty rfl done
    (fun v member => stored v (List.mem_append_left _ member)) ordered with ⟨_,n,_,fault⟩ | ⟨_,written⟩
  · rw [sound.writes] at fault
    cases fault
  · exact ⟨ordered,written.counting,written.tally⟩

theorem countedExactly_of_small (sound : SpillsSound env) (owns : self.arena.Owns urls)
    (small : ∀ url, (urls.map (StringVal.toString self.arena.memory)).count url < 2^31) :
    CountedExactly env self urls := by
  intro done rest parts nonempty
  obtain ⟨perm,_,_⟩ := sorted_batch env owns
  obtain ⟨ordered,_,tally⟩ := counting_part sound owns done rest parts
  rw [parts] at perm
  have few : ∀ url, (done.map (StringVal.toString self.arena.memory)).count url < 2^31 := by
    intro url
    have total := (perm.map (StringVal.toString self.arena.memory)).count_eq url
    rw [List.map_append,List.count_append] at total
    have bound := small url
    omega
  have counting := (tally few).counting ordered nonempty
  exact ⟨counting,((tally few).exact ordered counting).1⟩

/-- Where all counts are exact no URL of the batch is too frequent: at its last
occurrence its count is a 32-bit number. -/
theorem CountedExactly.small (exactly : CountedExactly env self urls) (sound : SpillsSound env)
    (owns : self.arena.Owns urls) (url : Bytes) :
    (urls.map (StringVal.toString self.arena.memory)).count url < 2^31 := by
  have perm := (sorted_batch env owns).1
  rw [← (perm.map (StringVal.toString self.arena.memory)).count_eq url]
  generalize sortedIs : env.sorting.sort (StringVal.less self.arena.memory) urls = sorted
  by_cases present : url ∈ sorted.map (StringVal.toString self.arena.memory)
  · obtain ⟨back,front,split,fresh⟩ := List.eq_append_cons_of_mem (List.mem_reverse.mpr present)
    have whole : sorted.map (StringVal.toString self.arena.memory) =
        front.reverse ++ [url] ++ back.reverse := by
      have turned := congrArg List.reverse split
      simpa using turned
    obtain ⟨done,rest,parts,doneIs,restIs⟩ := List.map_eq_append_iff.mp whole
    obtain ⟨before,last,doneParts,_,lastIs⟩ := List.map_eq_append_iff.mp doneIs
    obtain ⟨v,rfl,name⟩ := List.map_eq_singleton_iff.mp lastIs
    have nonempty : done ≠ [] := by
      rw [doneParts]
      simp
    obtain ⟨going,count⟩ := exactly done rest (sortedIs.trans parts) nonempty
    have counting := (counting_part sound owns done rest (sortedIs.trans parts)).2.1
    have current : (countedTuple env self done).str.toString self.arena.memory = url := by
      rw [counting.url going,doneParts,runsOf_snoc,Runs.count_url,name]
    have upper := (countedTuple env self done).cnt.toInt_lt
    rw [count,current] at upper
    have none : back.reverse.count url = 0 := by
      apply List.count_eq_zero_of_not_mem
      simpa using fresh
    rw [parts,List.map_append,restIs,List.count_append,none]
    omega
  · rw [List.count_eq_zero_of_not_mem present]
    decide

end Counting

section Joining
variable {env} {start : TopNFreqUrls} {k : Nat} {rows : Nat → List (Bytes × Int32)} {all : List Entry}
  {s : MergeState} {rest : Nat → List (Bytes × Int32)}

theorem Joining.joinedExactly (joining : Joining env start all k s rest) : JoinedExactly s := by
  intro nonempty
  have grouped := joining.grouped
  have current := joining.held.current
  cases counting : s.curr_tuple.IsEmpty with
  | true =>
    rw [counting,if_pos rfl] at current
    have none := grouped.opened current
    rw [counted,List.map_eq_nil_iff] at none
    exact absurd none nonempty
  | false =>
    rw [counting,if_neg Bool.false_ne_true] at current
    have inside : (s.curr_tuple.str.toString s.self.arena.memory,s.curr_tuple.cnt.toInt) ∈
        (coalesce (counted s.taken)).all := by
      rw [Groups.all,current]
      exact List.mem_append_right _ List.mem_cons_self
    exact ⟨rfl,grouped.weights _ inside⟩

theorem SpillFiles.head_exact (files : SpillFiles env start k rows) (owns : start.arena.Owns [])
    (exactly : ∀ n, JoinedExactly (MergeSort.head env start n)) (n : Nat) :
    (∃ rest, Joining env start (allRows k rows) k (MergeSort.head env start n) rest) ∧
      ∀ url, weight url (counted (MergeSort.head env start n).taken) < 2^31 := by
  induction n with
  | zero =>
    refine ⟨files.start owns,fun url => ?_⟩
    change weight url (counted []) < 2^31
    rw [counted,List.map_nil,weight_nil]
    decide
  | succ n ih =>
    obtain ⟨⟨rest,joining⟩,small⟩ := ih
    cases again : MergeSort.step env (MergeSort.head env start n) with
    | none =>
      have same : MergeSort.head env start (n+1) = MergeSort.head env start n := by
        unfold MergeSort.head at again ⊢
        rw [loop_succ,again]
        rfl
      rw [same]
      exact ⟨⟨rest,joining⟩,small⟩
    | some next =>
      have reached : MergeSort.head env start (n+1) = next := by
        unfold MergeSort.head at again ⊢
        rw [loop_succ,again]
        rfl
      have exact := exactly (n+1)
      rw [reached] at exact ⊢
      exact joining.step_exact files.positive small again fun nonempty => (exact nonempty).2

end Joining
end TopNFreqUrls

open TopNFreqUrls

theorem accepted_roomy (num_results mem_limit_in_mb : Int32)
    (accepted : argumentsAccepted num_results mem_limit_in_mb = true) :
    1024 ≤ (memLimit mem_limit_in_mb).toNat := by
  have nonzero := accepted_nonzero num_results mem_limit_in_mb accepted
  have upper := mem_limit_in_mb.toInt_lt
  have lower := mem_limit_in_mb.le_toInt
  have fits : (mem_limit_in_mb.toInt * 1024 * 1024 % 2^64).toNat < UInt64.size := by
    simp only [UInt64.size]
    omega
  rw [memLimit,UInt64.ofInt,UInt64.toNat_ofNat_of_lt' fits]
  omega

section Runs
variable (env : Env) (sound : env.faults = Faults.none) (disk : Disk) (file content : Bytes)
  (present : disk file = some content) (clean : ∀ url ∈ (linesOf content).flatMap chop, tab ∉ url)
  (num_results mem_limit_in_mb : Int32) (accepted : argumentsAccepted num_results mem_limit_in_mb = true)
include sound present clean accepted

theorem countsExact_of_small (small : ∀ url, ((linesOf content).flatMap chop).count url < 2^31) :
    CountsExact env (started env disk file content num_results (memLimit mem_limit_in_mb))
      ((TopNFreqUrls.new file num_results (memLimit mem_limit_in_mb) disk).PartialSort env).2 := by
  have low := accepted_roomy num_results mem_limit_in_mb accepted
  have spills := SpillsSound.of_none sound
  have pieces := inputUrls_sound env sound content
  obtain ⟨_,batches,spilled,_,batching⟩ :=
    PartialSort_sound env disk file content num_results (memLimit mem_limit_in_mb) spills present low
  have read : inputUrls env content = batches.flatten := batching.read.trans (by simp)
  rw [← pieces] at small clean
  have summaries := batching.summaries fun url => read ▸ small url
  have files := batching.spillFiles env summaries rfl (fun _ => by rw [sound]; rfl) (fun _ => by rw [sound]; rfl) clean
  have sums : ∀ url, weight url (counted (allRows spilled.length fun i => spilled.getD i [])) < 2^31 := by
    intro url
    rw [counted_allRows,spilled_weight url summaries,← read]
    exact_mod_cast small url
  refine ⟨fun n self urls call => ?_,fun n => ?_,fun n => ?_⟩
  · have head := head_state env _ (fresh_started env disk file content num_results (memLimit mem_limit_in_mb) low) n
    obtain ⟨owns,few⟩ := call.within env head (spills.no_fault env _)
    exact countedExactly_of_small spills owns fun url => (few url).trans_lt (small url)
  · obtain ⟨rest,joining⟩ := files.head batching.owns sums n
    exact joining.joinedExactly
  · obtain ⟨rest,joining⟩ := files.head batching.owns sums n
    rw [batching.handed]
    exact (List.sublist_append_left _ _).subperm.trans joining.emitted.same.symm.subperm

theorem small_of_countsExact
    (exactly : CountsExact env (started env disk file content num_results (memLimit mem_limit_in_mb))
      ((TopNFreqUrls.new file num_results (memLimit mem_limit_in_mb) disk).PartialSort env).2) (url : Bytes) :
    ((linesOf content).flatMap chop).count url < 2^31 := by
  have low := accepted_roomy num_results mem_limit_in_mb accepted
  have spills := SpillsSound.of_none sound
  have pieces := inputUrls_sound env sound content
  obtain ⟨_,batches,spilled,called,batching⟩ :=
    PartialSort_sound env disk file content num_results (memLimit mem_limit_in_mb) spills present low
  have read : inputUrls env content = batches.flatten := batching.read.trans (by simp)
  rw [← pieces] at clean ⊢
  have summaries : List.Forall₂ Summary batches spilled := by
    refine (List.forall₂_and_left _ _ |>.mpr ⟨fun _ member => member,batching.rows⟩).imp ?_
    rintro batch rows ⟨member,summary⟩
    apply summary
    obtain ⟨n,self,urls,call,rfl⟩ := called batch member
    have head := head_state env _ (fresh_started env disk file content num_results (memLimit mem_limit_in_mb) low) n
    exact (exactly.counting n self urls call).small spills (call.within env head (spills.no_fault env _)).1
  have files := batching.spillFiles env summaries rfl (fun _ => by rw [sound]; rfl) (fun _ => by rw [sound]; rfl) clean
  let rounds := MergeSort.rounds (MergeSort.start env
    ((TopNFreqUrls.new file num_results (memLimit mem_limit_in_mb) disk).PartialSort env).2)
  obtain ⟨⟨rest,joining⟩,bounds⟩ := files.head_exact batching.owns exactly.joining rounds
  have total := weight_perm url _ _ (counted_perm (joining.taken_all (merge_ended _)))
  rw [counted_allRows,spilled_weight url summaries,← read] at total
  have bound := bounds url
  rw [total] at bound
  exact_mod_cast bound

/-- The counts of a run are exact just when no piece of a line occurs too often. -/
theorem counts_never_overflow :
    CountsExact env (started env disk file content num_results (memLimit mem_limit_in_mb))
        ((TopNFreqUrls.new file num_results (memLimit mem_limit_in_mb) disk).PartialSort env).2 ↔
      ∀ url, ((linesOf content).flatMap chop).count url < 2^31 :=
  ⟨small_of_countsExact env sound disk file content present clean num_results mem_limit_in_mb accepted,
    countsExact_of_small env sound disk file content present clean num_results mem_limit_in_mb accepted⟩

end Runs

def linesOfA (n : Nat) : Bytes := (List.replicate n [97,newline]).flatten

theorem pieces_linesOfA (n : Nat) : (linesOf (linesOfA n)).flatMap chop = List.replicate n [97] := by
  induction n with
  | zero => rfl
  | succ n ih =>
    have first : linesOfA (n+1) = [97] ++ newline :: linesOfA n := by
      rw [linesOfA,List.replicate_succ,List.flatten_cons]
      rfl
    rw [first,pieces_line [97] _ (by decide),ih,chop_short [97] (by decide) (by decide)]
    rfl

theorem linesOfA_overflow (n : Nat) (many : 2^31 ≤ n) :
    ¬ CountsExact Env.reference (started Env.reference (oneFile (linesOfA n)) [105] (linesOfA n) 10 (memLimit 1))
      ((TopNFreqUrls.new [105] 10 (memLimit 1) (oneFile (linesOfA n))).PartialSort Env.reference).2 := by
  intro exactly
  have clean : ∀ url ∈ (linesOf (linesOfA n)).flatMap chop, tab ∉ url := by
    intro url member
    rw [pieces_linesOfA] at member
    rw [List.eq_of_mem_replicate member]
    decide
  have small := small_of_countsExact Env.reference rfl (oneFile (linesOfA n)) [105] (linesOfA n)
    (Function.update_self ..) clean 10 1 (by decide) exactly [97]
  rw [pieces_linesOfA,List.count_replicate_self] at small
  omega

/-- 2^31 lines `a`, four gigabytes, and a limit of one megabyte. -/
theorem counts_overflow :
    argumentsAccepted 10 1 = true ∧
    ¬ CountsExact Env.reference
      (started Env.reference (oneFile (linesOfA (2^31))) [105] (linesOfA (2^31)) 10 (memLimit 1))
      ((TopNFreqUrls.new [105] 10 (memLimit 1) (oneFile (linesOfA (2^31)))).PartialSort Env.reference).2 :=
  ⟨by decide,linesOfA_overflow (2^31) le_rfl⟩

theorem counts_never_overflow_three :
    CountsExact Env.reference (started Env.reference (oneFile (linesOfA 3)) [105] (linesOfA 3) 10 (memLimit 1))
        ((TopNFreqUrls.new [105] 10 (memLimit 1) (oneFile (linesOfA 3))).PartialSort Env.reference).2 ↔
      ∀ url, ((linesOf (linesOfA 3)).flatMap chop).count url < 2^31 :=
  counts_never_overflow Env.reference rfl (oneFile (linesOfA 3)) [105] (linesOfA 3) (Function.update_self ..)
    (by rw [pieces_linesOfA]; decide) 10 1 (by decide)

end TopNFreq
