import TopNFreq.SpillResults
import TopNFreq.MergeResults

/-! Both stages together: the results are the most frequent URLs of the input,
whatever the batches were. -/
namespace TopNFreq
open Library.Text Library.InputStream Library.Coalesce Library.Selection IStream

def tally (urls : List Bytes) : List (Bytes × Int) := urls.dedup.map fun url => (url,(urls.count url : Int))

/-- What the program is for: the `n` best of the distinct URLs, ordered by their
numbers of occurrences, descending, and by the URL where these are equal. -/
def best (n : Nat) (urls : List Bytes) : List (Bytes × Int) :=
  ((tally urls).insertionSort fun a b => rankOf a ≤ rankOf b).take n

theorem best_length (n : Nat) (urls : List Bytes) : (best n urls).length = min n urls.dedup.length := by
  rw [best,List.length_take,List.length_insertionSort,tally,List.length_map]

private theorem sorted_ranks (pairs : List (Bytes × Int)) :
    ((pairs.insertionSort fun a b => rankOf a ≤ rankOf b).map rankOf).Pairwise (· ≤ ·) := by
  have total : Std.Total fun a b : Bytes × Int => rankOf a ≤ rankOf b := ⟨fun a b => le_total _ _⟩
  have trans : IsTrans _ fun a b : Bytes × Int => rankOf a ≤ rankOf b := ⟨fun a b c => le_trans⟩
  rw [List.pairwise_map]
  exact List.pairwise_insertionSort _ pairs

theorem best_perm (n : Nat) {first second : List Bytes} (same : first.Perm second) : best n first = best n second := by
  have tallies : (tally first).Perm (tally second) := by
    have counts : tally first = first.dedup.map fun url => (url,(second.count url : Int)) := by
      rw [tally]
      exact List.map_congr_left fun url _ => by rw [same.count_eq]
    rw [counts]
    exact same.dedup.map _
  refine congrArg (List.take n) (List.map_injective_iff.mpr rankOf_injective ?_)
  refine List.Perm.eq_of_pairwise (fun _ _ _ _ => le_antisymm) (sorted_ranks _) (sorted_ranks _) (List.Perm.map _ ?_)
  exact (List.perm_insertionSort _ _).trans (tallies.trans (List.perm_insertionSort _ _).symm)

namespace TopNFreqUrls
variable {env : Env}

theorem Answered.best {start : TopNFreqUrls} {all : List Entry} {arena : Arena} {results : List ResultTuple}
    (answered : Answered start all arena results) (positive : ∀ e ∈ all, 0 < e.2.1.toInt) (urls : List Bytes)
    (accounts : ∀ url, weight url (counted all) = urls.count url) :
    results.map (fun t => (t.str.toString arena.memory,t.cnt.toInt)) = TopNFreq.best start.limit urls := by
  obtain ⟨taken,groups,perm,grouped,selects⟩ := answered.selects
  have weights : ∀ url, weight url (counted taken) = urls.count url := fun url =>
    (weight_perm url _ _ (counted_perm perm)).trans (accounts url)
  have positives : ∀ p ∈ counted taken, 0 < p.2 := by
    intro p member
    obtain ⟨e,inside,rfl⟩ := List.mem_map.mp member
    exact positive e (perm.mem_iff.mp inside)
  have keys : ∀ url, url ∈ urls.dedup ↔ url ∈ (counted taken).map Prod.fst := by
    intro url
    rw [List.mem_dedup,← List.count_pos_iff]
    constructor
    · intro occurs
      by_contra absent
      have none := weight_absent url (counted taken) fun p member same =>
        absent (same ▸ List.mem_map_of_mem member)
      rw [weights] at none
      omega
    · intro present
      have some := weight_pos positives present
      rw [weights] at some
      omega
  have groupsPerm : groups.all.Perm (tally urls) := by
    refine (grouped.perm urls.dedup (List.nodup_dedup _) keys).trans (List.Perm.of_eq ?_)
    exact List.map_congr_left fun url _ => by rw [weights]
  have ranks : results.map (ResultTuple.rank arena.memory) =
      (results.map fun t => (t.str.toString arena.memory,t.cnt.toInt)).map rankOf := by
    rw [List.map_map]
    rfl
  refine List.map_injective_iff.mpr rankOf_injective ?_
  rw [← ranks,TopNFreq.best,List.map_take]
  refine selects.take answered.ascending ?_ (sorted_ranks _)
  exact ((List.perm_insertionSort _ _).trans groupsPerm.symm).map _

theorem counted_allRows (spilled : List (List (Bytes × Int32))) :
    counted (allRows spilled.length fun i => spilled.getD i []) = spilled.flatten.map fun r => (r.1,r.2.toInt) := by
  have files : (List.range spilled.length).map (fun i => spilled.getD i []) = spilled := by
    refine List.ext_getElem (by simp) fun i _ bound => ?_
    simp [List.getD_eq_getElem?_getD,bound]
  have rows : (fun i => (FileMerger.tagged (fun i => spilled.getD i []) i).map fun e : Entry => (e.1,e.2.1.toInt)) =
      fun i => (spilled.getD i []).map fun r => (r.1,r.2.toInt) := by
    funext i
    rw [FileMerger.tagged,List.map_map]
    rfl
  calc counted (allRows spilled.length fun i => spilled.getD i [])
      _ = (List.range spilled.length).flatMap fun i => (spilled.getD i []).map fun r => (r.1,r.2.toInt) := by
        rw [counted,allRows,List.map_flatMap,rows]
      _ = ((List.range spilled.length).map fun i => spilled.getD i []).flatMap
            (List.map fun r => (r.1,r.2.toInt)) := by
        rw [List.flatMap_map]
      _ = spilled.flatten.map fun r => (r.1,r.2.toInt) := by
        rw [files,List.flatMap_def,List.map_flatten]

variable (env) in
theorem Batching.spillFiles {start final : TopNFreqUrls} {batches : List (List Bytes)}
    {spilled : List (List (Bytes × Int32))} (batching : Batching start final [] [] batches spilled)
    (summaries : List.Forall₂ Summary batches spilled)
    (merger : start.file_merger_ = .new start.file_mgr_.file_name_)
    (opens : ∀ i, env.faults.openSpill i = false) (reads : ∀ i, env.faults.readSpill i = none)
    (clean : ∀ url ∈ urlsOf start.file_mgr_.in_, tab ∉ url) :
    SpillFiles env final spilled.length fun i => spilled.getD i [] := by
  have read : urlsOf start.file_mgr_.in_ = batches.flatten := batching.read.trans (by simp)
  have file : ∀ i < spilled.length, spilled.getD i [] ∈ spilled := by
    intro i bound
    simp [List.getD_eq_getElem?_getD,bound]
  refine ⟨batching.files,⟨fun i => (spilled.getD i []).flatMap rowBytes,?_,fun i _ => rowText_flatMap _⟩,?_,?_⟩
  · rw [batching.file_merger_,merger]
    exact .files _ batching.disk (fun i _ => opens i) fun i _ => reads i
  · intro i bound r member
    obtain ⟨batch,inBatches,summary⟩ := spilled_batch summaries _ (file i bound)
    have inUrls : r.1 ∈ urlsOf start.file_mgr_.in_ :=
      read ▸ List.mem_flatten.mpr ⟨batch,inBatches,summary.sound r member⟩
    obtain ⟨positive,short,_⟩ := urlsOf_bounds _ r.1 inUrls
    exact ⟨List.length_pos_iff.mp positive,short,clean r.1 inUrls,summary.positive r member⟩
  · intro i bound
    obtain ⟨batch,_,summary⟩ := spilled_batch summaries _ (file i bound)
    exact (List.pairwise_map.mp summary.ascending).imp le_of_lt

end TopNFreqUrls

open TopNFreqUrls

theorem run_best (env : Env) (sound : env.faults = Faults.none) (disk : Disk) (file content : Bytes)
    (present : disk file = some content) (clean : ∀ url ∈ inputUrls env content, tab ∉ url)
    (small : ∀ url, (inputUrls env content).count url < 2^31) (num_results : Int32)
    (some : 1 ≤ num_results.toInt) (mem_limit : UInt64) (low : 1024 ≤ mem_limit.toNat) :
    ∃ middle final results, (TopNFreqUrls.new file num_results mem_limit disk).PartialSort env = (true,middle) ∧
      middle.MergeSort env = (true,final,results) ∧
      results.map (fun t => (t.str.toString final.arena.memory,t.cnt.toInt)) =
        best num_results.toInt.toNat (inputUrls env content) := by
  have spills := SpillsSound.of_none sound
  obtain ⟨passed,batches,spilled,_,batching⟩ :=
    PartialSort_sound env disk file content num_results mem_limit spills present low
  have read : inputUrls env content = batches.flatten := batching.read.trans (by simp)
  have summaries := batching.summaries fun url => read ▸ small url
  have files := batching.spillFiles env summaries rfl (fun _ => by rw [sound]; rfl)
    (fun _ => by rw [sound]; rfl) clean
  have accounts : ∀ url, weight url (counted (allRows spilled.length fun i => spilled.getD i [])) =
      (inputUrls env content).count url := by
    intro url
    rw [counted_allRows,spilled_weight url summaries,read]
  obtain ⟨final,results,run,answered⟩ := files.answered batching.owns fun url => by
    rw [accounts]
    exact_mod_cast small url
  refine ⟨_,final,results,Prod.ext passed rfl,run,?_⟩
  rw [answered.best files.positive _ accounts]
  congr 1
  have number : ((TopNFreqUrls.new file num_results mem_limit disk).PartialSort env).2.num_results_ = num_results :=
    batching.num_results_
  have limit := limit_exact _ (number.symm ▸ some)
  rw [number] at limit
  omega

/-- End to end: the results are the best of the distinct lines with the exact
numbers of their occurrences. -/
theorem external_top_n (env : Env) (sound : env.faults = Faults.none) (disk : Disk) (file content : Bytes)
    (present : disk file = some content) (short : ∀ l ∈ linesOf content, l.length ≤ MAX_URL_LEN - 1)
    (clean : ∀ l ∈ linesOf content, tab ∉ l) (few : (linesOf content).length < 2^31) (num_results : Int32)
    (some : 1 ≤ num_results.toInt) (mem_limit : UInt64) (low : 1024 ≤ mem_limit.toNat) :
    ∃ middle final results, (TopNFreqUrls.new file num_results mem_limit disk).PartialSort env = (true,middle) ∧
      middle.MergeSort env = (true,final,results) ∧
      results.length = min num_results.toInt.toNat (linesOf content).dedup.length ∧
      results.map (fun t => (t.str.toString final.arena.memory,t.cnt.toInt)) =
        best num_results.toInt.toNat (linesOf content) := by
  have bounds : ∀ l ∈ linesOf content, l.length < MAX_URL_LEN := fun l member =>
    Nat.lt_of_le_sub_one (by decide) (short l member)
  have urls : inputUrls env content = linesOf content := by
    rw [inputUrls,sound]
    exact urlsOf_lines _ content (holds_opened content) bounds
  obtain ⟨middle,final,results,first,second,same⟩ := run_best env sound disk file content present
    (urls ▸ clean) (fun url => urls ▸ List.count_le_length.trans_lt few) num_results some mem_limit low
  rw [urls] at same
  refine ⟨middle,final,results,first,second,?_,same⟩
  rw [← best_length,← same,List.length_map]

/-- A blank line, a last line without a newline, two lines that are equally frequent and one more
than there is room for, each in a spill file of its own. -/
theorem external_top_n_three :
    ∃ middle final results, (TopNFreqUrls.new [105] 2 1024 (oneFile longLines)).PartialSort Env.reference =
        (true,middle) ∧
      middle.MergeSort Env.reference = (true,final,results) ∧
      results.map (fun t => (t.str.toString final.arena.memory,t.cnt.toInt)) =
        [(longLine 99,2),(longLine 97,1)] := by
  obtain ⟨middle,final,results,first,second,_,same⟩ := external_top_n Env.reference rfl (oneFile longLines) [105]
    longLines (Function.update_self ..) (by decide +kernel) (by decide +kernel) (by decide +kernel) 2 (by decide)
    1024 (by decide)
  exact ⟨middle,final,results,first,second,same.trans (by decide +kernel)⟩

theorem exactCount_injective : Function.Injective fun r : Bytes × Int32 => (r.1,r.2.toInt) := by
  rintro ⟨url,cnt⟩ ⟨other,count⟩ same
  obtain ⟨urls,counts⟩ := Prod.mk.inj same
  exact Prod.ext urls (Int32.toInt_inj.mp counts)

/-- The result list of a whole run, `none` when the first stage fails. -/
def answer (env : Env) (self : TopNFreqUrls) : Option (List (Bytes × Int32)) :=
  match self.PartialSort env with
  | (false,_) => none
  | (true,self) =>
    let (_,self,results) := self.MergeSort env
    some (results.map (ResultTuple.view self.arena.memory))

/-- The results depend neither on the order of the lines nor on the memory limit,
as long as no piece of a line holds a tab or occurs too often to be counted. -/
theorem order_and_limit_irrelevant (env other : Env) (sound : env.faults = Faults.none)
    (otherSound : other.faults = Faults.none) (disk otherDisk : Disk) (file otherFile content permuted : Bytes)
    (present : disk file = some content) (otherPresent : otherDisk otherFile = some permuted)
    (same : (linesOf content).Perm (linesOf permuted))
    (clean : ∀ url ∈ (linesOf content).flatMap chop, tab ∉ url)
    (small : ∀ url, ((linesOf content).flatMap chop).count url < 2^31) (num_results : Int32)
    (some : 1 ≤ num_results.toInt) (mem_limit otherLimit : UInt64) (low : 1024 ≤ mem_limit.toNat)
    (otherLow : 1024 ≤ otherLimit.toNat) :
    answer env (TopNFreqUrls.new file num_results mem_limit disk) =
      answer other (TopNFreqUrls.new otherFile num_results otherLimit otherDisk) := by
  have pieces := same.flatMap_right chop
  have urls := inputUrls_sound env sound content
  have otherUrls := inputUrls_sound other otherSound permuted
  obtain ⟨middle,final,results,first,second,listed⟩ := run_best env sound disk file content present
    (urls ▸ clean) (urls ▸ small) num_results some mem_limit low
  obtain ⟨middle',final',results',first',second',listed'⟩ := run_best other otherSound otherDisk otherFile permuted
    otherPresent (fun url member => clean url (pieces.mem_iff.mpr (otherUrls ▸ member)))
    (fun url => by rw [otherUrls,← pieces.count_eq]; exact small url) num_results some otherLimit otherLow
  have equal : results.map (fun t => (t.str.toString final.arena.memory,t.cnt.toInt)) =
      results'.map fun t => (t.str.toString final'.arena.memory,t.cnt.toInt) := by
    rw [listed,listed',urls,otherUrls]
    exact best_perm _ pieces
  have views : results.map (ResultTuple.view final.arena.memory) =
      results'.map (ResultTuple.view final'.arena.memory) := by
    refine List.map_injective_iff.mpr exactCount_injective ?_
    rw [List.map_map,List.map_map]
    exact equal
  simp only [answer,first,second,first',second',views]

/-- The lines `a`, tab, `b` and `c` 1024 times: the row with the tab ends the file
it is in, and the limit decides whether the other row is in that file. -/
theorem limit_relevant_for_tab :
    answer Env.reference (TopNFreqUrls.new [105] 3 1024 (oneFile ([97,9,98,10] ++ List.replicate 1024 99))) ≠
      answer Env.reference (TopNFreqUrls.new [105] 3 2048 (oneFile ([97,9,98,10] ++ List.replicate 1024 99))) := by
  decide +kernel

theorem order_and_limit_irrelevant_three :
    answer Env.reference (TopNFreqUrls.new [105] 2 1024 (oneFile [98,10,97,10,98])) =
      answer Env.reference (TopNFreqUrls.new [105] 2 4096 (oneFile [10,98,10,98,10,97,10])) :=
  order_and_limit_irrelevant Env.reference Env.reference rfl rfl (oneFile [98,10,97,10,98])
    (oneFile [10,98,10,98,10,97,10]) [105] [105] [98,10,97,10,98] [10,98,10,98,10,97,10]
    (Function.update_self ..) (Function.update_self ..) (by decide +kernel)
    (by
      intro url member
      have pieces := member
      rw [← urlsOf_holds _ [98,10,97,10,98] (holds_opened _)] at pieces
      have clean : ∀ url ∈ urlsOf (IStream.opened [98,10,97,10,98] none), tab ∉ url := by decide +kernel
      exact clean url pieces)
    (by
      intro url
      rw [← urlsOf_holds _ [98,10,97,10,98] (holds_opened _)]
      exact List.count_le_length.trans_lt (by decide +kernel)) 2 (by decide) 1024 4096 (by decide) (by decide)

end TopNFreq
