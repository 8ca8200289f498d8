import TopNFreq.MergeStage

/-! Whole runs of the second stage over well-formed spill files: the owners of
the chunks at every head of the loop, and the results. -/
namespace TopNFreq
open Library.Text Library.InputStream Library.Loop Library.Coalesce Library.Selection IStream

def allRows (k : Nat) (rows : Nat → List (Bytes × Int32)) : List Entry :=
  (List.range k).flatMap (FileMerger.tagged rows)

namespace TopNFreqUrls
variable (env : Env)

/-- The program in front of the second stage, with `k` spill files of well-formed
rows that ascend by URL. -/
structure SpillFiles (start : TopNFreqUrls) (k : Nat) (rows : Nat → List (Bytes × Int32)) : Prop where
  count : start.file_mgr_.TotalOutputFiles = k
  files : ∃ texts, FileMerger.Sources env start.disk texts k start.file_merger_ ∧
    ∀ i < k, RowText (rows i) (texts i)
  rowsOk : ∀ i < k, ∀ r ∈ rows i, RowOk r
  ascending : ∀ i < k, (rows i).Pairwise urlLe

variable {env} {self : TopNFreqUrls} {k : Nat} {rows : Nat → List (Bytes × Int32)}

theorem SpillFiles.start (files : SpillFiles env self k rows) (owns : self.arena.Owns []) :
    ∃ rest, Joining env self (allRows k rows) k (MergeSort.start env self) rest := by
  obtain ⟨texts,sources,shape⟩ := files.files
  refine joining_start sources.prepared files.count ?_ shape files.rowsOk files.ascending owns
  intro i bound
  simpa [List.getD_eq_getElem?_getD,bound] using holds_opened (texts i)

theorem SpillFiles.positive (files : SpillFiles env self k rows) :
    ∀ e ∈ allRows k rows, 0 < e.2.1.toInt := by
  intro e member
  obtain ⟨i,range,inside⟩ := List.mem_flatMap.mp member
  obtain ⟨r,memberR,rfl⟩ := List.mem_map.mp inside
  exact (files.rowsOk i (List.mem_range.mp range) r memberR).positive

theorem SpillFiles.head (files : SpillFiles env self k rows) (owns : self.arena.Owns [])
    (sums : ∀ url, weight url (counted (allRows k rows)) < 2^31) (n : Nat) :
    ∃ rest, Joining env self (allRows k rows) k (MergeSort.head env self n) rest :=
  loop_invariant (MergeSort.step env) (fun s => ∃ rest, Joining env self (allRows k rows) k s rest)
    (fun _ _ ⟨_,joining⟩ again => joining.step_within files.positive sums again) _ (files.start owns) n

theorem SpillFiles.answered (files : SpillFiles env self k rows) (owns : self.arena.Owns [])
    (sums : ∀ url, weight url (counted (allRows k rows)) < 2^31) :
    ∃ final results, self.MergeSort env = (true,final,results) ∧
      Answered self (allRows k rows) final.arena results := by
  obtain ⟨rest,joining⟩ := files.head owns sums (MergeSort.rounds (MergeSort.start env self))
  exact joining.finish (merge_ended self)

/-- The addresses that the loop refers to: of the tuples in the merge heap, the
current tuple when there is one, and the best tuples so far. -/
def referenced (s : MergeState) : List Ptr :=
  s.self.file_merger_.res_tuples_heap_.map (fun t => t.str.ptr) ++
    (if s.curr_tuple.IsEmpty then [] else [s.curr_tuple.str.ptr]) ++ s.topN_tuples.map fun t => t.str.ptr

theorem Joining.owners {start : TopNFreqUrls} {all : List Entry} {s : MergeState}
    {rest : Nat → List (Bytes × Int32)} (joining : Joining env start all k s rest) :
    s.self.arena.chunks.keys.Perm (referenced s) ∧ (referenced s).Nodup ∧
      s.self.arena.chunks.keys.length ≤ k + s.self.limit + 1 := by
  have owns := joining.settled.owns
  have pointers : (s.self.file_merger_.res_tuples_heap_.map ResultTuple.str ++
      holders s.curr_tuple s.topN_tuples).map StringVal.ptr = referenced s := by
    rw [referenced,holders,List.map_append,List.map_append,List.map_map,List.map_map,List.append_assoc]
    cases s.curr_tuple.IsEmpty <;> rfl
  have keys := owns.keys
  have distinct := owns.nodup
  rw [pointers] at keys distinct
  refine ⟨keys,distinct,?_⟩
  have heap : s.self.file_merger_.res_tuples_heap_.length ≤ k := by
    have inside : s.self.file_merger_.res_tuples_heap_.map ResultTuple.file_index ⊆ List.range k := by
      intro i member
      obtain ⟨t,memberT,rfl⟩ := List.mem_map.mp member
      exact List.mem_range.mpr (joining.files ▸ (joining.settled.filed t memberT).1)
    have fewer := (joining.settled.indexes.subperm inside).length_le
    simpa using fewer
  have best := joining.held.bounded
  have total := keys.length_eq
  simp only [referenced,List.length_append,List.length_map] at total
  split at total <;> simp only [List.length_nil,List.length_singleton] at total <;> omega

end TopNFreqUrls

open TopNFreqUrls

/-- Who owns the chunks in the second stage: at every head of the loop the merge
heap, the current tuple and the best tuples, and in the end the results. No
`Free` misses. -/
theorem merge_chunk_ownership (env : Env) (self : TopNFreqUrls) (k : Nat) (rows : Nat → List (Bytes × Int32))
    (files : SpillFiles env self k rows) (sums : ∀ url, weight url (counted (allRows k rows)) < 2^31)
    (some : 1 ≤ self.num_results_.toInt) (empty : self.arena.Owns []) (hits : self.arena.FreesHit) :
    (∀ n, ∀ s, s = MergeSort.head env self n →
      s.self.arena.chunks.keys.Perm (referenced s) ∧ (referenced s).Nodup ∧ s.self.arena.FreesHit ∧
      (s.self.arena.chunks.keys.length : Int) ≤ k + self.num_results_.toInt + 1) ∧
    ∃ final results, self.MergeSort env = (true,final,results) ∧
      final.arena.chunks.keys.Perm (results.map fun t => t.str.ptr) ∧
      (results.map fun t => t.str.ptr).Nodup ∧ final.arena.FreesHit := by
  constructor
  · rintro n s rfl
    obtain ⟨rest,joining⟩ := files.head empty sums n
    obtain ⟨keys,distinct,bounded⟩ := joining.owners
    refine ⟨keys,distinct,joining.hits hits,?_⟩
    have limit := limit_exact self some
    rw [TopNFreqUrls.limit] at limit bounded
    rw [joining.num_results_] at bounded
    omega
  · obtain ⟨final,results,run,answered⟩ := files.answered empty sums
    have keys := answered.owns.keys
    have distinct := answered.owns.nodup
    rw [List.map_map] at keys distinct
    exact ⟨final,results,run,keys,distinct,answered.hits hits⟩

/-- Two files that share the URL `a`, and room for one result only: the string of
`b` is freed. -/
def twoFiles : TopNFreqUrls :=
  {TopNFreqUrls.new [105] 1 0 (fun _ => none) with
    file_mgr_ := {FileManager.new [105] with output_files_ := 2}
    file_merger_ := .ofInputs [.opened [97,9,50,10,98,9,49,10] none,.opened [97,9,51] none]}

theorem merge_chunk_ownership_two :
    (∀ n, ∀ s, s = MergeSort.head Env.reference twoFiles n →
      s.self.arena.chunks.keys.Perm (referenced s) ∧ s.self.arena.FreesHit) ∧
    ∃ final results, twoFiles.MergeSort Env.reference = (true,final,results) ∧
      final.arena.chunks.keys.Perm (results.map fun t => t.str.ptr) := by
  let rows : Nat → List (Bytes × Int32) := fun i => [[([97],2),([98],1)],[([97],3)]].getD i []
  let texts : Nat → Bytes := fun i => [[97,9,50,10,98,9,49,10],[97,9,51]].getD i []
  have index : ∀ i < 2, i = 0 ∨ i = 1 := by omega
  have files : SpillFiles Env.reference twoFiles 2 rows := by
    refine ⟨rfl,⟨texts,.inputs,?_⟩,?_,?_⟩
    · intro i bound
      rcases index i bound with rfl | rfl
      · exact .cons ([97],2) [([98],1)] [98,9,49,10] (.cons ([98],1) [] [] .nil)
      · exact .last ([97],3)
    · intro i bound r member
      have small : r = ([97],2) ∨ r = ([98],1) ∨ r = ([97],3) := by
        rcases index i bound with rfl | rfl <;> simp [rows] at member <;> tauto
      rcases small with rfl | rfl | rfl <;> exact ⟨by decide,by decide,by decide,by decide⟩
    · intro i bound
      have below : urlLe ([97],2) ([98],1) := show ([97] : Bytes) ≤ [98] by decide
      rcases index i bound with rfl | rfl <;> simp [rows,below]
  have sums : ∀ url, weight url (counted (allRows 2 rows)) < 2^31 := by
    intro url
    have all : counted (allRows 2 rows) = [([97],2),([98],1),([97],3)] := rfl
    rw [all,weight_cons,weight_cons,weight_cons,weight_nil]
    split <;> split <;> decide
  obtain ⟨heads,final,results,run,keys,_⟩ := merge_chunk_ownership Env.reference twoFiles 2 rows files sums
    (by decide) (Arena.Owns.empty 0) (by simp [Arena.FreesHit,twoFiles,TopNFreqUrls.new,Arena.new])
  exact ⟨fun n s head => ⟨(heads n s head).1,(heads n s head).2.2.1⟩,final,results,run,keys⟩

end TopNFreq
