import TopNFreq.TopHeap
import TopNFreq.RowFormat
import Mathlib.Data.List.Induction

/-! Any sequence of tuples given to `UpdateHeap`: the heap holds the best of them, the
others have been freed, and emptying the heap lists it best first. -/
namespace TopNFreq
open Library.Text Library.Ordering Library.Selection

theorem Arena.freeDropped_append (a : Arena) (dropped gone : List ResultTuple) :
    a.freeDropped (dropped ++ gone) = (a.freeDropped gone).freeDropped dropped := by
  rw [freeDropped,List.foldr_append]
  rfl

theorem Arena.Free_chunks (a : Arena) (ptr other : Ptr) :
    other ∈ (a.Free ptr).chunks ↔ other ∈ a.chunks ∧ other ≠ ptr := by
  unfold Arena.Free MemPool.Free Arena.chunks
  dsimp only
  split
  · rename_i absent
    have gone : ptr ∉ a.mem_pool_.chunk_sizes_ := AList.lookup_eq_none.mp absent
    exact ⟨fun member => ⟨member,fun same => gone (same ▸ member)⟩,And.left⟩
  · rw [AList.mem_erase,and_comm]

theorem Arena.freeDropped_chunks (a : Arena) (dropped : List ResultTuple) (ptr : Ptr) :
    ptr ∈ (a.freeDropped dropped).chunks ↔ ptr ∈ a.chunks ∧ ∀ t ∈ dropped, ptr ≠ t.str.ptr := by
  induction dropped with
  | nil => simp [freeDropped]
  | cons first rest ih =>
    change ptr ∈ ((a.freeDropped rest).Free first.str.ptr).chunks ↔ _
    rw [Free_chunks,ih]
    simp only [List.forall_mem_cons,and_assoc,and_comm (a := ptr ≠ first.str.ptr)]

theorem Separate.subset {mem : Memory} {tuples fewer : List ResultTuple} (separate : Separate mem tuples)
    (inside : fewer.Sublist tuples) : Separate mem fewer :=
  ⟨separate.apart.sublist (inside.map _),fun t member => separate.stored t (inside.subset member)⟩

theorem Separate.congr {mem other : Memory} {tuples : List ResultTuple} (separate : Separate mem tuples)
    (frame : ∀ t ∈ tuples, other t.str.ptr = mem t.str.ptr) : Separate other tuples := by
  refine ⟨separate.apart,fun t member => ⟨?_,(separate.stored t member).short⟩⟩
  rw [frame t member]
  exact (separate.stored t member).inside

theorem ResultTuple.rank_frame {mem other : Memory} {t : ResultTuple} (frame : other t.str.ptr = mem t.str.ptr) :
    t.rank other = t.rank mem := by
  simp only [rank,StringVal.toString_congr frame]

namespace TopNFreqUrls
variable (env : Env) {self after : TopNFreqUrls} {tuple : ResultTuple} {tuples heap dropped : List ResultTuple}

/-- The tuples given to `UpdateHeap` one after the other, from an empty heap on. -/
def offerAll (env : Env) (self : TopNFreqUrls) (tuples : List ResultTuple) : TopNFreqUrls × List ResultTuple :=
  tuples.foldl (fun s tuple => s.1.UpdateHeap env tuple s.2) (self,[])

structure Offered (before : TopNFreqUrls) (tuples : List ResultTuple) (after : TopNFreqUrls)
    (heap dropped : List ResultTuple) : Prop where
  program : after = {before with arena := before.arena.freeDropped dropped}
  splits : Splits (ResultTuple.rank before.arena.memory) before.limit tuples heap dropped
  heaped : env.queue.IsHeap (ResultTuple.less after.arena.memory) heap

/-- Freeing the dropped tuples touches neither the heap nor tuples still to come. -/
theorem Offered.frame (offered : Offered env self tuples after heap dropped) (later : List ResultTuple)
    (separate : Separate self.arena.memory (later ++ tuples)) :
    Separate after.arena.memory (later ++ heap) ∧
      ∀ t ∈ later ++ heap, after.arena.memory t.str.ptr = self.arena.memory t.str.ptr := by
  have all := separate.perm (offered.splits.same.append_left later)
  rw [← List.append_assoc] at all
  have frame := all.frame
  rw [offered.program]
  exact ⟨(all.subset (List.sublist_append_left _ dropped)).congr frame,frame⟩

theorem Offered.step (offered : Offered env self tuples after heap dropped)
    (separate : Separate self.arena.memory (tuple :: tuples)) :
    ∃ more, Offered env self (tuple :: tuples) (after.UpdateHeap env tuple heap).1
      (after.UpdateHeap env tuple heap).2 more := by
  obtain ⟨held,frame⟩ := offered.frame env [tuple] separate
  rw [List.singleton_append] at held frame
  have same : after.limit = self.limit := by
    rw [offered.program]
    rfl
  have bounded : heap.length ≤ after.limit := by
    rw [same,offered.splits.size]
    exact Nat.min_le_left _ _
  obtain ⟨gone,kept,result,trimmed⟩ := UpdateHeap_trimmed env held offered.heaped bounded
  rw [result]
  have trims := trimmed.trims.congr fun t member => ResultTuple.rank_frame (frame t member)
  rw [same] at trims
  refine ⟨gone ++ dropped,?_,offered.splits.trim trims,trimmed.heaped⟩
  rw [Arena.freeDropped_append,offered.program]

theorem offered_all (tuples : List ResultTuple) (separate : Separate self.arena.memory tuples) :
    ∃ dropped, Offered env self tuples (offerAll env self tuples).1 (offerAll env self tuples).2 dropped := by
  induction tuples using List.reverseRecOn with
  | nil => exact ⟨[],rfl,splits_nil _ _,env.queue.isHeap_nil _⟩
  | append_singleton tuples tuple ih =>
    have moved := List.perm_append_singleton tuple tuples
    obtain ⟨dropped,offered⟩ := ih (separate.subset (List.sublist_append_left tuples [tuple]))
    obtain ⟨more,next⟩ := offered.step env (separate.perm moved)
    have last : offerAll env self (tuples ++ [tuple]) =
        (offerAll env self tuples).1.UpdateHeap env tuple (offerAll env self tuples).2 := by
      rw [offerAll,List.foldl_append]
      rfl
    rw [last]
    exact ⟨more,next.program,next.splits.offered_perm moved.symm,next.heaped⟩

/-- The tuples that are freed, the order of the offers and the list at the end. -/
structure KeepsBest (before : TopNFreqUrls) (tuples : List ResultTuple) (after : TopNFreqUrls)
    (heap : List ResultTuple) : Prop where
  best : ∃ dropped, after = {before with arena := before.arena.freeDropped dropped} ∧
    Splits (ResultTuple.rank before.arena.memory) before.num_results_.toInt.toNat tuples heap dropped ∧
    ∀ ptr, ptr ∈ after.arena.chunks ↔ ptr ∈ before.arena.chunks ∧ ∀ t ∈ dropped, ptr ≠ t.str.ptr
  unordered : ∀ other, other.Perm tuples →
    ((offerAll env before other).2.map (ResultTuple.view before.arena.memory)).Perm
      (heap.map (ResultTuple.view before.arena.memory))
  listed : ∃ results,
    fillResults env after.arena.memory heap.length (List.replicate heap.length default) heap = results ∧
      results.Perm heap ∧ (results.map (ResultTuple.rank before.arena.memory)).Pairwise (· ≤ ·) ∧
      results.map (ResultTuple.view after.arena.memory) = results.map (ResultTuple.view before.arena.memory)

theorem view_of_rank (mem : Memory) (t : ResultTuple) :
    t.view mem = ((ofLex (t.rank mem)).2,Int32.ofInt (OrderDual.ofDual (ofLex (t.rank mem)).1)) := by
  simp [ResultTuple.view,ResultTuple.rank]

theorem Offered.unordered {other : List ResultTuple} {later : TopNFreqUrls} {kept gone : List ResultTuple}
    (offered : Offered env self tuples after heap dropped) (again : Offered env self other later kept gone)
    (same : other.Perm tuples) :
    (kept.map (ResultTuple.view self.arena.memory)).Perm (heap.map (ResultTuple.view self.arena.memory)) := by
  have ranks := (again.splits.offered_perm same).selects.unique offered.splits.selects
  have views := ranks.map fun rank => ((ofLex rank).2,Int32.ofInt (OrderDual.ofDual (ofLex rank).1))
  simpa only [List.map_map,Function.comp_def,← view_of_rank] using views

/-- The heap keeps exactly the best, whatever the order of the offers. -/
theorem heap_keeps_best (self : TopNFreqUrls) (positive : 1 ≤ self.num_results_.toInt)
    (tuples : List ResultTuple) (separate : Separate self.arena.memory tuples) :
    KeepsBest env self tuples (offerAll env self tuples).1 (offerAll env self tuples).2 := by
  obtain ⟨dropped,offered⟩ := offered_all env tuples separate
  have limit := limit_exact self positive
  have number : self.limit = self.num_results_.toInt.toNat := by omega
  generalize ran : offerAll env self tuples = s at offered
  obtain ⟨after,heap⟩ := s
  dsimp only at offered ⊢
  refine ⟨⟨dropped,offered.program,number ▸ offered.splits,?_⟩,?_,?_⟩
  · intro ptr
    rw [offered.program]
    exact self.arena.freeDropped_chunks dropped ptr
  · intro other same
    obtain ⟨gone,again⟩ := offered_all env other (separate.perm same.symm)
    exact offered.unordered env again same
  · obtain ⟨held,frame⟩ := offered.frame env [] separate
    obtain ⟨sorted,filled,perm,ascending⟩ := fillResults_sorted env after.arena.memory
      (List.replicate heap.length default) heap held.stored offered.heaped (by simp)
    rw [List.drop_of_length_le (by simp),List.append_nil] at filled
    have kept : ∀ t ∈ sorted, after.arena.memory t.str.ptr = self.arena.memory t.str.ptr :=
      fun t member => frame t (perm.mem_iff.mp member)
    have ranks : sorted.map (ResultTuple.rank after.arena.memory) = sorted.map (ResultTuple.rank self.arena.memory) :=
      List.map_congr_left fun t member => ResultTuple.rank_frame (kept t member)
    refine ⟨sorted,filled,perm,ranks ▸ ascending,List.map_congr_left fun t member => ?_⟩
    rw [ResultTuple.view,StringVal.toString_congr (kept t member)]
    rfl

/-- Room for one result: of the strings `b` and `a`, both counted 5, the second one stays, and the
block of the first is freed. -/
theorem heap_keeps_best_one :
    let first := (Arena.new 1024).deposit Platform.reference [98]
    let second := first.2.deposit Platform.reference [97]
    let before : TopNFreqUrls := {TopNFreqUrls.new [102] 1 1024 (fun _ => none) with arena := second.2}
    let tuples : List ResultTuple := [⟨first.1,5,0⟩,⟨second.1,5,1⟩]
    second.2.chunks.keys = [second.1.ptr,first.1.ptr] ∧
      (offerAll Env.reference before tuples).1.arena.chunks.keys = [second.1.ptr] ∧
      (offerAll Env.reference before tuples).2 = [⟨second.1,5,1⟩] ∧
      KeepsBest Env.reference before tuples (offerAll Env.reference before tuples).1
        (offerAll Env.reference before tuples).2 := by
  refine ⟨by decide +kernel,by decide +kernel,by decide +kernel,
    heap_keeps_best Env.reference _ (by decide) _ ⟨by decide +kernel,?_⟩⟩
  refine List.forall_mem_cons.mpr ⟨⟨?_,?_⟩,List.forall_mem_singleton.mpr ⟨?_,?_⟩⟩ <;> decide +kernel

end TopNFreqUrls
end TopNFreq
