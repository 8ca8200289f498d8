import TopNFreq.Program
import TopNFreq.Ownership
import TopNFreq.Library.Selection

/-! The bounded heap of the best results: `UpdateHeap` keeps the best ones of
everything offered, and the loop that empties it writes them best first. -/
namespace TopNFreq
open Library.Text Library.Loop Library.Ordering Library.Selection

def PoolCall.Hits (call : PoolCall) : Prop :=
  match call.op with
  | .free ptr => ptr ∈ call.before ∧ ptr ∉ call.after
  | _ => True

/-- Every `Free` so far has hit a live chunk. -/
def Arena.FreesHit (a : Arena) : Prop := ∀ call ∈ a.calls, call.Hits

theorem Arena.FreesHit.free {a : Arena} {strings : List StringVal} (hit : a.FreesHit) (owns : a.Owns strings)
    (v : StringVal) (member : v ∈ strings) : (a.Free v.ptr).FreesHit := by
  obtain ⟨calls,live⟩ := owns.free_hits member
  intro call inside
  rw [calls] at inside
  rcases List.mem_cons.mp inside with rfl | old
  · exact ⟨live,by simp [AList.mem_erase]⟩
  · exact hit call old

theorem Arena.FreesHit.deposit {a : Arena} (env : Platform) (hit : a.FreesHit) (text : Bytes) :
    (a.deposit env text).2.FreesHit := by
  intro call inside
  rcases List.mem_cons.mp inside with rfl | old
  · exact trivial
  · exact hit call old

/-- Freed one after the other, the first one last. -/
def Arena.freeDropped (a : Arena) (dropped : List ResultTuple) : Arena :=
  dropped.foldr (fun t arena => arena.Free t.str.ptr) a

theorem Arena.Free_frame (a : Arena) {ptr other : Ptr} (apart : other ≠ ptr) :
    (a.Free ptr).memory other = a.memory other := by
  unfold Arena.Free
  dsimp only
  split
  · exact Function.update_of_ne apart _ _
  · rfl

theorem Arena.freeDropped_frame (a : Arena) (dropped : List ResultTuple) {ptr : Ptr}
    (apart : ∀ t ∈ dropped, ptr ≠ t.str.ptr) : (a.freeDropped dropped).memory ptr = a.memory ptr := by
  induction dropped with
  | nil => rfl
  | cons first rest ih =>
    exact (Free_frame _ (apart first List.mem_cons_self)).trans
      (ih fun t member => apart t (List.mem_cons_of_mem first member))

theorem Arena.Owns.freeDropped {a : Arena} {others : List StringVal} (dropped : List ResultTuple)
    (owns : a.Owns (dropped.map ResultTuple.str ++ others)) :
    (a.freeDropped dropped).Owns others ∧ (a.FreesHit → (a.freeDropped dropped).FreesHit) := by
  induction dropped generalizing others with
  | nil => exact ⟨owns,id⟩
  | cons first rest ih =>
    have moved : a.Owns (rest.map ResultTuple.str ++ first.str :: others) := owns.perm List.perm_middle.symm
    obtain ⟨kept,hits⟩ := ih moved
    exact ⟨(kept.free (List.Perm.refl _)).1,fun hit => (hits hit).free kept first.str List.mem_cons_self⟩

/-- Every tuple has a block of its own for its string. -/
structure Separate (mem : Memory) (tuples : List ResultTuple) : Prop where
  apart : (tuples.map fun t => t.str.ptr).Nodup
  stored : ∀ t ∈ tuples, Stored mem t.str

theorem Separate.perm {mem : Memory} {tuples other : List ResultTuple} (separate : Separate mem tuples)
    (same : tuples.Perm other) : Separate mem other :=
  ⟨(same.map _).nodup_iff.mp separate.apart,fun t member => separate.stored t (same.mem_iff.mpr member)⟩

theorem Separate.of_owns {a : Arena} {tuples : List ResultTuple} {others : List StringVal}
    (owns : a.Owns (tuples.map ResultTuple.str ++ others)) : Separate a.memory tuples := by
  refine ⟨?_,fun t member => owns.stored t.str (List.mem_append_left _ (List.mem_map_of_mem member))⟩
  have distinct := owns.nodup
  rw [List.map_append,List.map_map] at distinct
  exact (List.nodup_append.mp distinct).1

theorem Separate.frame {a : Arena} {kept dropped : List ResultTuple} (separate : Separate a.memory (kept ++ dropped))
    (t : ResultTuple) (member : t ∈ kept) : (a.freeDropped dropped).memory t.str.ptr = a.memory t.str.ptr := by
  have distinct := separate.apart
  rw [List.map_append,List.nodup_append] at distinct
  apply a.freeDropped_frame dropped
  intro d inside
  exact distinct.2.2 _ (List.mem_map_of_mem member) _ (List.mem_map_of_mem inside)

namespace TopNFreqUrls
variable (env : Env) {self : TopNFreqUrls} {tuple : ResultTuple} {heap : List ResultTuple} {others : List StringVal}

theorem limit_exact (self : TopNFreqUrls) (positive : 1 ≤ self.num_results_.toInt) :
    (self.limit : Int) = self.num_results_.toInt := by
  have upper := self.num_results_.toInt_lt
  have fits : (self.num_results_.toInt % 2^64).toNat < UInt64.size := by
    simp only [UInt64.size]
    omega
  rw [limit,UInt64.ofInt,UInt64.toNat_ofNat_of_lt' fits]
  omega

structure Trimmed (before : TopNFreqUrls) (tuple : ResultTuple) (heap dropped kept : List ResultTuple) : Prop where
  heaped : env.queue.IsHeap (ResultTuple.less (before.arena.freeDropped dropped).memory) kept
  trims : Trims (ResultTuple.rank before.arena.memory) before.limit tuple heap kept dropped

private theorem top_worst (mem : Memory) (worst : ResultTuple) (rest : List ResultTuple)
    (stored : ∀ t ∈ worst :: rest, Stored mem t.str)
    (heaped : env.queue.IsHeap (ResultTuple.less mem) (worst :: rest)) :
    ∀ t ∈ rest, t.rank mem ≤ worst.rank mem := by
  intro t member
  refine not_lt.mp fun below => ?_
  have notLess := env.queue.top_max _ worst rest (rank_strictWeak mem _ stored) heaped t member
  exact Bool.eq_false_iff.mp notLess ((ResultTuple.less_iff mem worst t (stored worst (by simp))
    (stored t (by simp [member]))).mpr below)

private theorem trimmed_evict (full : heap.length = self.limit) (worst : ResultTuple) (rest : List ResultTuple)
    (separate : Separate self.arena.memory (worst :: rest)) (same : (worst :: rest).Perm (tuple :: heap))
    (heaped : env.queue.IsHeap (ResultTuple.less self.arena.memory) (worst :: rest)) :
    Trimmed env self tuple heap [worst]
      (env.queue.pop (ResultTuple.less (self.arena.freeDropped [worst]).memory) (worst :: rest)) := by
  have order := rank_strictWeak self.arena.memory (worst :: rest) separate.stored
  have frame : ∀ t ∈ rest, (self.arena.freeDropped [worst]).memory t.str.ptr = self.arena.memory t.str.ptr :=
    (separate.perm (List.perm_append_singleton worst rest).symm).frame
  have compares : ∀ a ∈ rest, ∀ b ∈ rest, ResultTuple.less (self.arena.freeDropped [worst]).memory a b =
      ResultTuple.less self.arena.memory a b :=
    fun a memberA b memberB => ResultTuple.less_congr (frame a memberA) (frame b memberB)
  rw [env.queue.pop_congr _ _ worst rest compares]
  have popped := env.queue.pop_perm (ResultTuple.less self.arena.memory) worst rest
  have heapedRest := env.queue.pop_isHeap _ worst rest order heaped
  generalize env.queue.pop (ResultTuple.less self.arena.memory) (worst :: rest) = kept at popped heapedRest
  refine ⟨?_,?_,.inr ⟨worst,rfl,full,?_⟩⟩
  · refine env.queue.isHeap_congr _ _ kept ?_ heapedRest
    intro a memberA b memberB
    exact (compares a (popped.mem_iff.mp memberA) b (popped.mem_iff.mp memberB)).symm
  · calc (tuple :: heap).Perm (worst :: rest) := same.symm
      _ |>.Perm (rest ++ [worst]) := (List.perm_append_singleton worst rest).symm
      _ |>.Perm (kept ++ [worst]) := popped.symm.append_right [worst]
  · intro k member
    exact top_worst env _ worst rest separate.stored heaped k (popped.mem_iff.mp member)

theorem UpdateHeap_trimmed (separate : Separate self.arena.memory (tuple :: heap))
    (heaped : env.queue.IsHeap (ResultTuple.less self.arena.memory) heap) (bounded : heap.length ≤ self.limit) :
    ∃ dropped kept, self.UpdateHeap env tuple heap = ({self with arena := self.arena.freeDropped dropped},kept) ∧
      Trimmed env self tuple heap dropped kept := by
  have perm := env.queue.push_perm (ResultTuple.less self.arena.memory) heap tuple
  have pushed := env.queue.push_isHeap _ heap tuple (rank_strictWeak _ _ separate.stored) heaped
  unfold UpdateHeap
  generalize env.queue.push (ResultTuple.less self.arena.memory) heap tuple = grown at perm pushed
  have size := perm.length_eq
  rw [List.length_cons] at size
  rcases Nat.lt_or_eq_of_le bounded with room | full
  · have stopped : evict env self.limit (self.arena,grown) = none := by
      simp only [evict,size]
      rw [if_neg (by omega)]
    dsimp only
    rw [loop_stopped _ _ _ stopped]
    exact ⟨[],grown,rfl,pushed,by simpa using perm.symm,.inl ⟨rfl,room⟩⟩
  · obtain ⟨worst,rest,rfl⟩ := List.exists_cons_of_length_pos (by omega : 0 < grown.length)
    have again : evict env self.limit (self.arena,worst :: rest) = some (self.arena.Free worst.str.ptr,
        env.queue.pop (ResultTuple.less (self.arena.Free worst.str.ptr).memory) (worst :: rest)) := by
      simp only [evict,size]
      rw [if_pos (by omega)]
    have stopped : evict env self.limit (self.arena.Free worst.str.ptr,
        env.queue.pop (ResultTuple.less (self.arena.Free worst.str.ptr).memory) (worst :: rest)) = none := by
      have shorter := (env.queue.pop_perm (ResultTuple.less (self.arena.Free worst.str.ptr).memory) worst
        rest).length_eq
      simp only [List.length_cons] at size
      simp only [evict,shorter]
      rw [if_neg (by omega)]
    dsimp only
    rw [List.length_cons,loop_next _ _ _ _ again,loop_stopped _ _ _ stopped]
    exact ⟨[worst],_,rfl,trimmed_evict env full worst rest (separate.perm perm.symm) perm pushed⟩

structure Updated (before : TopNFreqUrls) (tuple : ResultTuple) (heap : List ResultTuple)
    (others : List StringVal) (arena : Arena) (kept : List ResultTuple) : Prop where
  owns : arena.Owns (kept.map ResultTuple.str ++ others)
  heaped : env.queue.IsHeap (ResultTuple.less arena.memory) kept
  frame : ∀ v ∈ kept.map ResultTuple.str ++ others, arena.memory v.ptr = before.arena.memory v.ptr
  hits : before.arena.FreesHit → arena.FreesHit
  selects : ∀ offered, Selects before.limit offered (heap.map (ResultTuple.rank before.arena.memory)) →
    Selects before.limit (tuple.rank before.arena.memory :: offered) (kept.map (ResultTuple.rank before.arena.memory))

theorem UpdateHeap_updated (owns : self.arena.Owns (tuple.str :: heap.map ResultTuple.str ++ others))
    (heaped : env.queue.IsHeap (ResultTuple.less self.arena.memory) heap) (bounded : heap.length ≤ self.limit) :
    ∃ arena kept, self.UpdateHeap env tuple heap = ({self with arena},kept) ∧
      Updated env self tuple heap others arena kept := by
  obtain ⟨dropped,kept,same,trimmed⟩ := UpdateHeap_trimmed env (Separate.of_owns owns) heaped bounded
  have parts := trimmed.trims.same.map ResultTuple.str
  have owned : self.arena.Owns (dropped.map ResultTuple.str ++ (kept.map ResultTuple.str ++ others)) := by
    refine owns.perm ?_
    rw [← List.append_assoc,← List.map_append]
    exact (parts.trans (List.perm_append_comm.map _)).append_right others
  obtain ⟨after,hits⟩ := owned.freeDropped dropped
  refine ⟨_,kept,same,after,trimmed.heaped,?_,hits,?_⟩
  · intro v member
    have distinct := owned.nodup
    rw [List.map_append,List.nodup_append] at distinct
    apply self.arena.freeDropped_frame dropped
    intro d inside same
    exact distinct.2.2 _ (List.mem_map_of_mem (List.mem_map_of_mem inside)) _ (List.mem_map_of_mem member) same.symm
  · intro offered selects
    exact selects.trim trimmed.trims.map

theorem fillResults_sorted (mem : Memory) (results heap : List ResultTuple)
    (stored : ∀ t ∈ heap, Stored mem t.str) (heaped : env.queue.IsHeap (ResultTuple.less mem) heap)
    (room : heap.length ≤ results.length) :
    ∃ sorted : List ResultTuple,
      fillResults env mem heap.length results heap = sorted ++ results.drop heap.length ∧ sorted.Perm heap ∧
        (sorted.map (ResultTuple.rank mem)).Pairwise (· ≤ ·) := by
  generalize size : heap.length = i at room ⊢
  induction i generalizing results heap with
  | zero =>
    obtain rfl := List.eq_nil_of_length_eq_zero size
    exact ⟨[],by simp [fillResults],List.Perm.refl _,List.Pairwise.nil⟩
  | succ i ih =>
    obtain ⟨worst,rest,rfl⟩ := List.exists_cons_of_length_pos (by omega : 0 < heap.length)
    have order := rank_strictWeak mem (worst :: rest) stored
    have popped := env.queue.pop_perm (ResultTuple.less mem) worst rest
    have heapedRest := env.queue.pop_isHeap _ worst rest order heaped
    rw [fillResults,List.headD_cons]
    generalize env.queue.pop (ResultTuple.less mem) (worst :: rest) = left at popped heapedRest
    have lengthLeft : left.length = i := by
      rw [popped.length_eq]
      simpa using size
    obtain ⟨sorted,same,perm,ascending⟩ := ih (results.set i worst) left
      (fun t member => stored t (List.mem_cons_of_mem _ (popped.mem_iff.mp member))) heapedRest lengthLeft
      (by simp only [List.length_set]; omega)
    have tail : (results.set i worst).drop i = worst :: results.drop (i + 1) := by
      rw [List.drop_set,if_neg (lt_irrefl i),Nat.sub_self,List.drop_eq_getElem_cons (by omega),
        List.set_cons_zero]
    refine ⟨sorted ++ [worst],?_,?_,?_⟩
    · rw [same,tail,List.append_assoc,List.singleton_append]
    · exact (List.perm_append_singleton _ _).trans ((perm.trans popped).cons worst)
    · rw [List.map_append,List.map_singleton,List.pairwise_append]
      refine ⟨ascending,List.pairwise_singleton _ _,?_⟩
      intro a memberA b memberB
      rw [List.mem_singleton.mp memberB]
      obtain ⟨t,inside,rfl⟩ := List.mem_map.mp memberA
      exact top_worst env mem worst rest stored heaped t (popped.mem_iff.mp (perm.mem_iff.mp inside))

end TopNFreqUrls
end TopNFreq
