import TopNFreq.MergeRun
import TopNFreq.RunCount
import TopNFreq.TopHeap

/-! The second stage at the heads of its loop: who owns the strings in the pool,
what has been joined and what the best results so far are. -/
namespace TopNFreq
open Library.Text Library.InputStream Library.Loop Library.Coalesce Library.Selection IStream

def counted (taken : List Entry) : List (Bytes × Int) := taken.map fun e => (e.1,e.2.1.toInt)

def rankOf (group : Bytes × Int) : Rank := toLex (OrderDual.toDual group.2,group.1)

theorem rankOf_injective : Function.Injective rankOf := by
  rintro ⟨url,total⟩ ⟨other,count⟩ same
  obtain ⟨counts,urls⟩ := Prod.mk.inj (toLex.injective same)
  exact Prod.ext urls (OrderDual.toDual.injective counts)

theorem ResultTuple.rank_eq (mem : Memory) (t : ResultTuple) :
    t.rank mem = rankOf (t.str.toString mem,t.cnt.toInt) := rfl

theorem ResultTuple.rank_congr {mem other : Memory} {t : ResultTuple}
    (same : mem t.str.ptr = other t.str.ptr) : t.rank mem = t.rank other := by
  rw [rank_eq,rank_eq,StringVal.toString_congr same]

namespace TopNFreqUrls
variable (env : Env)

def holders (curr_tuple : ResultTuple) (topN_tuples : List ResultTuple) : List StringVal :=
  (if curr_tuple.IsEmpty then [] else [curr_tuple.str]) ++ topN_tuples.map ResultTuple.str

/-- The loop variables stand for the groups formed so far. -/
structure Held (mem : Memory) (limit : Nat) (curr_tuple : ResultTuple) (topN_tuples : List ResultTuple)
    (groups : Groups Bytes Int) : Prop where
  current : groups.current =
    if curr_tuple.IsEmpty then none else some (curr_tuple.str.toString mem,curr_tuple.cnt.toInt)
  heaped : env.queue.IsHeap (ResultTuple.less mem) topN_tuples
  selects : Selects limit (groups.closed.map rankOf) (topN_tuples.map (ResultTuple.rank mem))

section Holding
variable {env} {mem : Memory} {limit : Nat} {curr_tuple : ResultTuple} {topN_tuples : List ResultTuple}
  {groups : Groups Bytes Int}

theorem Held.congr (held : Held env mem limit curr_tuple topN_tuples groups) (other : Memory)
    (frame : ∀ v ∈ holders curr_tuple topN_tuples, other v.ptr = mem v.ptr) :
    Held env other limit curr_tuple topN_tuples groups := by
  have frameTop : ∀ t ∈ topN_tuples, other t.str.ptr = mem t.str.ptr := fun t member =>
    frame t.str (List.mem_append_right _ (List.mem_map_of_mem member))
  refine ⟨?_,?_,?_⟩
  · rw [held.current]
    cases counting : curr_tuple.IsEmpty with
    | true => rfl
    | false =>
      have same := frame curr_tuple.str (by simp [holders,counting])
      rw [StringVal.toString_congr same]
  · refine env.queue.isHeap_congr _ _ _ ?_ held.heaped
    exact fun a memberA b memberB => (ResultTuple.less_congr (frameTop a memberA) (frameTop b memberB)).symm
  · have ranks : topN_tuples.map (ResultTuple.rank other) = topN_tuples.map (ResultTuple.rank mem) :=
      List.map_congr_left fun t member => ResultTuple.rank_congr (frameTop t member)
    exact ranks ▸ held.selects

theorem Held.bounded (held : Held env mem limit curr_tuple topN_tuples groups) : topN_tuples.length ≤ limit := by
  have size := held.selects.size
  simp only [List.length_map] at size
  omega

end Holding

/-- The second stage at the head of its loop: `all` are the rows of the spill
files, `rest` those still in the files. -/
structure Joining (start : TopNFreqUrls) (all : List Entry) (k : Nat) (s : MergeState)
    (rest : Nat → List (Bytes × Int32)) : Prop where
  settled : FileMerger.Settled env.toPlatform urlLe s.self.file_merger_ s.self.arena
    (holders s.curr_tuple s.topN_tuples) rest
  emitted : LeastFirst (fun a b : Entry => urlLe a.row b.row) all s.taken
    (FileMerger.left s.self.file_merger_ s.self.arena.memory rest)
  held : Held env s.self.arena.memory s.self.limit s.curr_tuple s.topN_tuples (coalesce (counted s.taken))
  hits : start.arena.FreesHit → s.self.arena.FreesHit
  files : s.self.file_merger_.sorted_files_.length = k
  num_results_ : s.self.num_results_ = start.num_results_
  drained : s.finished = true → s.self.file_merger_.res_tuples_heap_ = []

section Round
variable {env} {start : TopNFreqUrls} {all : List Entry} {k : Nat} {s : MergeState}
  {rest : Nat → List (Bytes × Int32)}

theorem counted_append (first second : List Entry) : counted (first ++ second) = counted first ++ counted second :=
  List.map_append

theorem counted_snoc (taken : List Entry) (e : Entry) : counted (taken ++ [e]) = counted taken ++ [(e.1,e.2.1.toInt)] := by
  simp [counted]

theorem Joining.grouped (joining : Joining env start all k s rest) :
    Grouped (counted s.taken) (coalesce (counted s.taken)) := by
  refine grouped_coalesce _ ?_
  rw [counted,List.map_map,List.pairwise_map]
  exact joining.emitted.ascending

end Round

/-! Reading rows frees nothing. -/

private theorem refill_hits (env : Platform) (m : FileMerger) (pool : Arena) (i : Nat) (hit : pool.FreesHit) :
    (m.refill env pool i).2.FreesHit := by
  unfold FileMerger.refill
  rcases FileMerger.NextResultTupleInFile_cases env (m.sorted_files_.getD i .unopened) pool
    (env.uninit pool.requests) with ⟨_,same⟩ | ⟨url,_,same⟩
  · rw [same]
    exact hit
  · rw [same]
    exact hit.deposit env url

theorem NextResultTuple_hits (env : Platform) (m : FileMerger) (pool : Arena) (res : ResultTuple)
    (hit : pool.FreesHit) : (m.NextResultTuple env pool res).2.2.1.FreesHit := by
  unfold FileMerger.NextResultTuple
  split
  · exact hit
  · dsimp only
    split
    · exact hit
    · exact refill_hits env _ pool _ hit

section Body
variable {b : MergeState} {rest : Nat → List (Bytes × Int32)} {items : List (Bytes × Int)}

structure BodyKept (b after : MergeState) (rest : Nat → List (Bytes × Int32)) (items : List (Bytes × Int))
    (item : Bytes × Int) : Prop where
  settled : FileMerger.Settled env.toPlatform urlLe after.self.file_merger_ after.self.arena
    (holders after.curr_tuple after.topN_tuples) rest
  left : FileMerger.left after.self.file_merger_ after.self.arena.memory rest =
    FileMerger.left b.self.file_merger_ b.self.arena.memory rest
  held : Held env after.self.arena.memory b.self.limit after.curr_tuple after.topN_tuples
    (coalesce (items ++ [item]))
  hits : b.self.arena.FreesHit → after.self.arena.FreesHit
  file_merger_ : after.self.file_merger_ = b.self.file_merger_
  num_results_ : after.self.num_results_ = b.self.num_results_
  taken : after.taken = b.taken
  finished : after.finished = b.finished

structure Delivered (b : MergeState) (rest : Nat → List (Bytes × Int32)) (items : List (Bytes × Int))
    (item : Bytes × Int) : Prop where
  settled : FileMerger.Settled env.toPlatform urlLe b.self.file_merger_ b.self.arena
    (b.next_tuple.str :: holders b.curr_tuple b.topN_tuples) rest
  held : Held env b.self.arena.memory b.self.limit b.curr_tuple b.topN_tuples (coalesce items)
  grouped : Grouped items (coalesce items)
  positives : ∀ p ∈ items, 0 < p.2
  shape : item = (b.next_tuple.str.toString b.self.arena.memory,b.next_tuple.cnt.toInt)
  positive : 0 < item.2

variable {env} {item : Bytes × Int}

theorem nonempty_of_positive (t : ResultTuple) (positive : 0 < t.cnt.toInt) : t.IsEmpty = false := by
  refine Bool.eq_false_iff.mpr fun empty => ?_
  rw [(t.isEmpty_iff).mp empty,Int32.toInt_zero] at positive
  exact lt_irrefl _ positive

private theorem Delivered.first (delivered : Delivered env b rest items item)
    (empty : b.curr_tuple.IsEmpty = true) :
    BodyKept env b {b with curr_tuple := b.next_tuple} rest items item := by
  have cnt : 0 < b.next_tuple.cnt.toInt := by
    have positive := delivered.positive
    rwa [delivered.shape] at positive
  have counting := nonempty_of_positive b.next_tuple cnt
  have none := delivered.held.current
  rw [if_pos empty] at none
  have groups : coalesce (items ++ [item]) = ⟨(coalesce items).closed,some item⟩ := by
    rw [coalesce_snoc,absorb,none]
  have settled := delivered.settled
  simp only [holders,empty,if_true,List.nil_append] at settled
  refine ⟨?_,rfl,⟨?_,delivered.held.heaped,?_⟩,id,rfl,rfl,rfl,rfl⟩
  · simpa only [holders,counting,Bool.false_eq_true,if_false,List.singleton_append] using settled
  · rw [groups,counting,if_neg Bool.false_ne_true,delivered.shape]
  · rw [groups]
    exact delivered.held.selects

private theorem Delivered.again (delivered : Delivered env b rest items item)
    (small : weight item.1 (items ++ [item]) < 2^31) (counting : b.curr_tuple.IsEmpty = false)
    (same : b.curr_tuple.str.toString b.self.arena.memory = b.next_tuple.str.toString b.self.arena.memory) :
    BodyKept env b {b with
      curr_tuple := {b.curr_tuple with cnt := b.curr_tuple.cnt + b.next_tuple.cnt}
      self := {b.self with arena := b.self.arena.Free b.next_tuple.str.ptr}} rest items item := by
  obtain ⟨owns,frame⟩ := delivered.settled.owns.free List.perm_middle
  obtain ⟨settled,left⟩ := delivered.settled.transfer _ _ owns fun t member =>
    frame t.str (List.mem_append_left _ (List.mem_map_of_mem member))
  have held := delivered.held.congr (b.self.arena.Free b.next_tuple.str.ptr).memory
    fun v member => frame v (List.mem_append_right _ member)
  have current := delivered.held.current
  rw [counting,if_neg Bool.false_ne_true] at current
  -- The open group has the weight of its URL, so the bound on the new weight bounds the sum.
  have total := delivered.grouped.weights _ (show (_,_) ∈ (coalesce items).all by
    rw [Groups.all,current]
    exact List.mem_append_right _ List.mem_cons_self)
  have inside := delivered.grouped.sound _ (show (_,_) ∈ (coalesce items).all by
    rw [Groups.all,current]
    exact List.mem_append_right _ List.mem_cons_self)
  have positiveTotal := weight_pos delivered.positives inside
  have positive := delivered.positive
  rw [weight_append,weight_cons,weight_nil,if_pos rfl,add_zero,delivered.shape] at small
  rw [delivered.shape] at positive
  dsimp only at total small positive positiveTotal
  rw [← same,← total] at small
  rw [← total] at positiveTotal
  have exact := toInt_add_exact b.curr_tuple.cnt b.next_tuple.cnt positiveTotal.le positive.le small
  have stillCounting : ({b.curr_tuple with cnt := b.curr_tuple.cnt + b.next_tuple.cnt} : ResultTuple).IsEmpty =
      false := nonempty_of_positive _ (by dsimp only; omega)
  have groups : coalesce (items ++ [item]) = ⟨(coalesce items).closed,
      some (b.curr_tuple.str.toString b.self.arena.memory,
        b.curr_tuple.cnt.toInt + b.next_tuple.cnt.toInt)⟩ := by
    rw [coalesce_snoc,absorb,current,delivered.shape]
    simp only [same,if_true]
  have heldCurrent := held.current
  rw [current,counting,if_neg Bool.false_ne_true] at heldCurrent
  refine ⟨?_,left,⟨?_,held.heaped,?_⟩,fun hit => hit.free delivered.settled.owns _ (by simp),rfl,rfl,rfl,rfl⟩
  · simpa only [holders,counting,stillCounting] using settled
  · rw [groups,stillCounting,if_neg Bool.false_ne_true,exact]
    exact congrArg (fun url => some (url,b.curr_tuple.cnt.toInt + b.next_tuple.cnt.toInt))
      (congrArg Prod.fst (Option.some.inj heldCurrent))
  · rw [groups]
    exact held.selects

private theorem Delivered.change (delivered : Delivered env b rest items item)
    (counting : b.curr_tuple.IsEmpty = false)
    (different : b.curr_tuple.str.toString b.self.arena.memory ≠ b.next_tuple.str.toString b.self.arena.memory)
    (arena : Arena) (kept : List ResultTuple)
    (updated : Updated env b.self b.curr_tuple b.topN_tuples
      (b.self.file_merger_.res_tuples_heap_.map ResultTuple.str ++ [b.next_tuple.str]) arena kept) :
    BodyKept env b {b with self := {b.self with arena}, topN_tuples := kept, curr_tuple := b.next_tuple}
      rest items item := by
  have cnt : 0 < b.next_tuple.cnt.toInt := by
    have positive := delivered.positive
    rwa [delivered.shape] at positive
  have nextCounting := nonempty_of_positive b.next_tuple cnt
  have current := delivered.held.current
  rw [counting,if_neg Bool.false_ne_true] at current
  have groups : coalesce (items ++ [item]) = ⟨(coalesce items).closed ++
      [(b.curr_tuple.str.toString b.self.arena.memory,b.curr_tuple.cnt.toInt)],some item⟩ := by
    rw [coalesce_snoc,absorb,current,delivered.shape]
    simp only [if_neg different]
  have owns : arena.Owns (b.self.file_merger_.res_tuples_heap_.map ResultTuple.str ++
      holders b.next_tuple kept) := by
    refine updated.owns.perm ?_
    simp only [holders,nextCounting,Bool.false_eq_true,if_false]
    exact List.perm_append_comm.trans (List.Perm.of_eq (List.append_assoc _ _ _))
  obtain ⟨settled,left⟩ := delivered.settled.transfer arena _ owns fun t member =>
    updated.frame t.str (List.mem_append_right _ (List.mem_append_left _ (List.mem_map_of_mem member)))
  refine ⟨settled,left,⟨?_,updated.heaped,?_⟩,updated.hits,rfl,rfl,rfl,rfl⟩
  · have frame := updated.frame b.next_tuple.str (by simp)
    rw [groups,nextCounting,if_neg Bool.false_ne_true,delivered.shape,StringVal.toString_congr frame]
  · have ranks : kept.map (ResultTuple.rank arena.memory) = kept.map (ResultTuple.rank b.self.arena.memory) :=
      List.map_congr_left fun t member => ResultTuple.rank_congr
        (updated.frame t.str (List.mem_append_left _ (List.mem_map_of_mem member)))
    have offered := updated.selects _ delivered.held.selects
    rw [groups,ranks,List.map_append]
    exact offered.offered_perm (List.perm_append_singleton _ _).symm

private theorem Delivered.body_cases (delivered : Delivered env b rest items item) :
    b.curr_tuple.IsEmpty = true ∧ MergeSort.body env b = {b with curr_tuple := b.next_tuple} ∨
    b.curr_tuple.IsEmpty = false ∧
      b.curr_tuple.str.toString b.self.arena.memory = b.next_tuple.str.toString b.self.arena.memory ∧
      MergeSort.body env b = {b with
        curr_tuple := {b.curr_tuple with cnt := b.curr_tuple.cnt + b.next_tuple.cnt}
        self := {b.self with arena := b.self.arena.Free b.next_tuple.str.ptr}} ∨
    b.curr_tuple.IsEmpty = false ∧
      b.curr_tuple.str.toString b.self.arena.memory ≠ b.next_tuple.str.toString b.self.arena.memory ∧
      ∃ arena kept, Updated env b.self b.curr_tuple b.topN_tuples
        (b.self.file_merger_.res_tuples_heap_.map ResultTuple.str ++ [b.next_tuple.str]) arena kept ∧
      MergeSort.body env b =
        {b with self := {b.self with arena}, topN_tuples := kept, curr_tuple := b.next_tuple} := by
  unfold MergeSort.body
  cases counting : b.curr_tuple.IsEmpty with
  | true => exact .inl ⟨rfl,rfl⟩
  | false =>
    have owns := delivered.settled.owns
    simp only [holders,counting,Bool.false_eq_true,if_false] at owns
    have meaning := StringVal.StrEquals_iff b.self.arena.memory b.curr_tuple.str b.next_tuple.str
      (owns.stored _ (by simp)) (owns.stored _ (by simp))
    rw [if_neg Bool.false_ne_true,ResultTuple.StrEquals]
    by_cases equals : b.curr_tuple.str.StrEquals b.self.arena.memory b.next_tuple.str = true
    · rw [if_pos equals]
      exact .inr (.inl ⟨rfl,meaning.mp equals,rfl⟩)
    · have offered : b.self.arena.Owns (b.curr_tuple.str :: b.topN_tuples.map ResultTuple.str ++
          (b.self.file_merger_.res_tuples_heap_.map ResultTuple.str ++ [b.next_tuple.str])) := by
        apply owns.perm
        rw [List.append_cons]
        exact List.perm_append_comm
      obtain ⟨arena,kept,same,updated⟩ := UpdateHeap_updated env offered delivered.held.heaped
        delivered.held.bounded
      rw [if_neg equals,same]
      exact .inr (.inr ⟨rfl,fun same => equals (meaning.mpr same),arena,kept,updated,rfl⟩)

theorem Delivered.body (delivered : Delivered env b rest items item)
    (small : weight item.1 (items ++ [item]) < 2^31) :
    BodyKept env b (MergeSort.body env b) rest items item := by
  rcases delivered.body_cases with ⟨empty,same⟩ | ⟨counting,equal,same⟩ |
    ⟨counting,different,arena,kept,updated,same⟩
  · rw [same]
    exact delivered.first empty
  · rw [same]
    exact delivered.again small counting equal
  · rw [same]
    exact delivered.change counting different arena kept updated

theorem Delivered.body_url (delivered : Delivered env b rest items item) :
    (MergeSort.body env b).curr_tuple.str.toString (MergeSort.body env b).self.arena.memory = item.1 := by
  have owns := delivered.settled.owns
  rw [delivered.shape]
  rcases delivered.body_cases with ⟨_,same⟩ | ⟨counting,equal,same⟩ | ⟨_,_,arena,kept,updated,same⟩
  · rw [same]
  · simp only [holders,counting,Bool.false_eq_true,if_false] at owns
    obtain ⟨_,frame⟩ := owns.free List.perm_middle
    rw [same]
    dsimp only
    rw [← equal]
    exact StringVal.toString_congr (frame b.curr_tuple.str (by simp))
  · rw [same]
    exact StringVal.toString_congr (updated.frame b.next_tuple.str (by simp))

end Body

section Run
variable {env} {start : TopNFreqUrls} {all : List Entry} {k : Nat} {s next : MergeState}
  {rest : Nat → List (Bytes × Int32)}

private def handing (s : MergeState) (file_merger_ : FileMerger) (arena : Arena) (top : ResultTuple) : MergeState :=
  {s with
    self := {s.self with file_merger_, arena}
    next_tuple := top
    taken := s.taken ++ [top.entry arena.memory]}

theorem body_taken (env : Env) (b : MergeState) : (MergeSort.body env b).taken = b.taken := by
  unfold MergeSort.body
  split
  · rfl
  · split <;> rfl

structure Handed (env : Env) (start : TopNFreqUrls) (all : List Entry) (k : Nat) (s : MergeState)
    (file_merger_ : FileMerger) (arena : Arena) (top : ResultTuple) (more : Nat → List (Bytes × Int32)) : Prop where
  delivered : Delivered env (handing s file_merger_ arena top) more (counted s.taken)
    ((top.entry arena.memory).1,(top.entry arena.memory).2.1.toInt)
  emitted : LeastFirst (fun a b : Entry => urlLe a.row b.row) all (s.taken ++ [top.entry arena.memory])
    (FileMerger.left file_merger_ arena.memory more)
  hits : start.arena.FreesHit → arena.FreesHit
  files : file_merger_.sorted_files_.length = k

theorem Joining.round (joining : Joining env start all k s rest) (positive : ∀ e ∈ all, 0 < e.2.1.toInt)
    (again : MergeSort.step env s = some next) :
    s.self.file_merger_.res_tuples_heap_ = [] ∧ next = {s with finished := true} ∨
      s.finished = false ∧ ∃ after arena top more, Handed env start all k s after arena top more ∧
        next = MergeSort.body env (handing s after arena top) := by
  cases going : s.finished with
  | true => simp [MergeSort.step,going] at again
  | false =>
    rw [MergeSort.step,if_neg (Bool.eq_false_iff.mp going)] at again
    cases shape : s.self.file_merger_.res_tuples_heap_ with
    | nil =>
      rw [FileMerger.NextResultTuple_empty _ _ _ shape] at again
      exact .inl ⟨rfl,(Option.some.inj again).symm⟩
    | cons top heap =>
      obtain ⟨after,arena,more,call,settled,perm,least,frame⟩ :=
        joining.settled.next urlLe_order top heap shape s.next_tuple
      rw [call] at again
      have entry : top.entry arena.memory = top.entry s.self.arena.memory := by
        simp only [ResultTuple.entry,StringVal.toString_congr (frame top.str (by simp))]
      have member : top.entry arena.memory ∈ all := by
        rw [entry,joining.emitted.same.mem_iff,List.mem_append,perm.mem_iff]
        exact .inr List.mem_cons_self
      have emitted := joining.emitted.emit perm least
      rw [← entry] at emitted
      have inTaken : ∀ e ∈ s.taken, e ∈ all := fun e inside =>
        joining.emitted.same.mem_iff.mpr (List.mem_append_left _ inside)
      refine .inr ⟨rfl,after,arena,top,more,⟨?_,emitted,fun hit => ?_,?_⟩,(Option.some.inj again).symm⟩
      · refine ⟨settled,joining.held.congr _ fun v inside => frame v (List.mem_cons_of_mem _ inside),
          joining.grouped,?_,rfl,positive _ member⟩
        intro p inside
        obtain ⟨e,inTakenE,rfl⟩ := List.mem_map.mp inside
        exact positive e (inTaken e inTakenE)
      · have passed := NextResultTuple_hits env.toPlatform s.self.file_merger_ s.self.arena s.next_tuple
          (joining.hits hit)
        rwa [call] at passed
      · have files := FileMerger.NextResultTuple_length env.toPlatform s.self.file_merger_ s.self.arena
          s.next_tuple
        rw [call] at files
        exact files.trans joining.files

private theorem Joining.hand (joining : Joining env start all k s rest) (going : s.finished = false)
    {after : FileMerger} {arena : Arena} {top : ResultTuple} {more : Nat → List (Bytes × Int32)}
    (handed : Handed env start all k s after arena top more)
    (small : weight (top.entry arena.memory).1 (counted (s.taken ++ [top.entry arena.memory])) < 2^31) :
    Joining env start all k (MergeSort.body env (handing s after arena top)) more := by
  rw [counted_snoc] at small
  have kept := handed.delivered.body small
  have taken : (MergeSort.body env (handing s after arena top)).taken = s.taken ++ [top.entry arena.memory] :=
    body_taken env _
  refine ⟨kept.settled,?_,?_,fun hit => kept.hits (handed.hits hit),?_,?_,fun ended => ?_⟩
  · rw [kept.left,taken]
    exact handed.emitted
  · have limit : (MergeSort.body env (handing s after arena top)).self.limit = s.self.limit := by
      simp only [TopNFreqUrls.limit,kept.num_results_]
      rfl
    rw [limit,taken,counted_snoc]
    exact kept.held
  · rw [kept.file_merger_]
    exact handed.files
  · exact kept.num_results_.trans joining.num_results_
  · rw [kept.finished] at ended
    exact absurd (going.symm.trans ended) Bool.false_ne_true

private theorem Joining.ended (joining : Joining env start all k s rest)
    (empty : s.self.file_merger_.res_tuples_heap_ = []) :
    Joining env start all k {s with finished := true} rest :=
  ⟨joining.settled,joining.emitted,joining.held,joining.hits,joining.files,joining.num_results_,fun _ => empty⟩

theorem counted_perm {first second : List Entry} (same : first.Perm second) :
    (counted first).Perm (counted second) := same.map _

/-- Where no URL has too many occurrences in all files together, every round is sound. -/
theorem Joining.step_within (joining : Joining env start all k s rest) (positive : ∀ e ∈ all, 0 < e.2.1.toInt)
    (sums : ∀ url, weight url (counted all) < 2^31) (again : MergeSort.step env s = some next) :
    ∃ more, Joining env start all k next more := by
  rcases joining.round positive again with ⟨empty,rfl⟩ | ⟨going,after,arena,top,more,handed,rfl⟩
  · exact ⟨rest,joining.ended empty⟩
  · have whole := counted_perm handed.emitted.same
    rw [counted_append] at whole
    refine ⟨more,joining.hand going handed ?_⟩
    apply lt_of_le_of_lt (weight_part_le ?_ whole) (sums (top.entry arena.memory).1)
    intro p member
    obtain ⟨q,inside,rfl⟩ := List.mem_map.mp member
    exact positive q inside

/-- Where the count of the tuple after a round is exact, the round is sound and no
URL has had too many occurrences. -/
theorem Joining.step_exact (joining : Joining env start all k s rest) (positive : ∀ e ∈ all, 0 < e.2.1.toInt)
    (small : ∀ url, weight url (counted s.taken) < 2^31) (again : MergeSort.step env s = some next)
    (exactly : next.taken ≠ [] → next.curr_tuple.cnt.toInt =
      weight (next.curr_tuple.str.toString next.self.arena.memory) (counted next.taken)) :
    (∃ more, Joining env start all k next more) ∧ ∀ url, weight url (counted next.taken) < 2^31 := by
  rcases joining.round positive again with ⟨empty,rfl⟩ | ⟨going,after,arena,top,more,handed,rfl⟩
  · exact ⟨⟨rest,joining.ended empty⟩,small⟩
  · have taken : (MergeSort.body env (handing s after arena top)).taken = s.taken ++ [top.entry arena.memory] :=
      body_taken env _
    have count := exactly (by rw [taken]; simp)
    have upper := (MergeSort.body env (handing s after arena top)).curr_tuple.cnt.toInt_lt
    rw [handed.delivered.body_url,taken] at count
    rw [count] at upper
    refine ⟨⟨more,joining.hand going handed upper⟩,fun url => ?_⟩
    rw [taken]
    by_cases same : (top.entry arena.memory).1 = url
    · exact same ▸ upper
    · rw [counted_snoc,weight_append,weight_cons,if_neg same,weight_nil]
      have before := small url
      omega

/-- A number of rounds that is enough for the rest of the loop. -/
def MergeSort.toGo (s : MergeState) : Nat := if s.finished then 0 else MergeSort.rounds s

theorem MergeSort.step_nearer {env : Env} (s next : MergeState) (again : MergeSort.step env s = some next) :
    MergeSort.toGo next < MergeSort.toGo s := by
  unfold MergeSort.toGo
  cases going : s.finished with
  | true => simp [MergeSort.step,going] at again
  | false =>
    rw [MergeSort.step,if_neg (Bool.eq_false_iff.mp going)] at again
    have nearer := FileMerger.NextResultTuple_pending env.toPlatform s.self.file_merger_ s.self.arena s.next_tuple
    rcases call : s.self.file_merger_.NextResultTuple env.toPlatform s.self.arena s.next_tuple with
      ⟨_ | _,after,arena,top⟩
    · simp only [call,Option.some.injEq] at again
      subst again
      simp [MergeSort.rounds]
    · simp only [call,Option.some.injEq,forall_const] at again nearer
      have merger : next.self.file_merger_ = after := by
        rw [← again]
        unfold MergeSort.body
        split
        · rfl
        · split <;> rfl
      have fewer : MergeSort.rounds next < MergeSort.rounds s := by
        simp only [MergeSort.rounds,merger]
        simp only [FileMerger.pending] at nearer
        omega
      split <;> simp only [Bool.false_eq_true,if_false] <;> omega

theorem merge_ended (self : TopNFreqUrls) :
    (MergeSort.head env self (MergeSort.rounds (MergeSort.start env self))).finished = true := by
  have ended : MergeSort.step env (MergeSort.head env self _) = none :=
    loop_ends (MergeSort.step env) MergeSort.toGo MergeSort.step_nearer (MergeSort.start env self)
      (MergeSort.rounds (MergeSort.start env self)) le_rfl
  generalize MergeSort.head env self (MergeSort.rounds (MergeSort.start env self)) = s at ended
  by_contra going
  rw [MergeSort.step,if_neg going] at ended
  split at ended <;> cases ended

end Run

section Ends
variable {env} {start : TopNFreqUrls} {all : List Entry} {k : Nat} {s : MergeState}
  {rest : Nat → List (Bytes × Int32)}

theorem fill_hits (env : Platform) (indexes : List Nat) (m : FileMerger × Arena) (hit : m.2.FreesHit) :
    (indexes.foldl (FileMerger.fill env) m).2.FreesHit := by
  induction indexes generalizing m with
  | nil => exact hit
  | cons i later ih =>
    refine ih _ ?_
    unfold FileMerger.fill
    split
    · exact hit
    · exact refill_hits env _ _ i hit

theorem joining_start {self : TopNFreqUrls} {streams : List IStream} {texts : Nat → Bytes}
    {rows : Nat → List (Bytes × Int32)}
    (prepared : FileMerger.Prepared env self.disk self.file_merger_ k streams)
    (count : self.file_mgr_.TotalOutputFiles = k)
    (holds : ∀ i < k, Holds (streams.getD i .unopened) (texts i)) (shape : ∀ i < k, RowText (rows i) (texts i))
    (rowsOk : ∀ i < k, ∀ r ∈ rows i, RowOk r) (ascending : ∀ i < k, (rows i).Pairwise urlLe)
    (owns : self.arena.Owns []) :
    ∃ rest, Joining env self ((List.range k).flatMap (FileMerger.tagged rows)) k (MergeSort.start env self) rest := by
  obtain ⟨rest,settled,perm,size,_⟩ := FileMerger.Open_settled prepared owns holds shape rowsOk ascending
  have passed (hits : self.arena.FreesHit) :
      (self.file_merger_.Open env self.disk self.arena k).2.2.FreesHit := by
    rw [prepared.open_eq]
    exact fill_hits env.toPlatform _ _ hits
  subst count
  refine ⟨rest,?_,leastFirst_start perm,⟨?_,env.queue.isHeap_nil _,selects_nil _⟩,passed,size,rfl,by
    simp [MergeSort.start]⟩
  · exact settled
  · rfl

private theorem Joining.offered (joining : Joining env start all k s rest) (ended : s.finished = true) :
    ∃ arena kept, (if s.curr_tuple.IsEmpty then (s.self,s.topN_tuples)
        else s.self.UpdateHeap env s.curr_tuple s.topN_tuples) = ({s.self with arena},kept) ∧
      arena.Owns (kept.map ResultTuple.str) ∧ env.queue.IsHeap (ResultTuple.less arena.memory) kept ∧
      (start.arena.FreesHit → arena.FreesHit) ∧
      Selects s.self.limit ((coalesce (counted s.taken)).all.map rankOf)
        (kept.map (ResultTuple.rank arena.memory)) := by
  have owns := joining.settled.owns
  rw [joining.drained ended,List.map_nil,List.nil_append] at owns
  have current := joining.held.current
  cases counting : s.curr_tuple.IsEmpty with
  | true =>
    simp only [holders,counting,if_true,List.nil_append] at owns
    rw [counting,if_pos rfl] at current
    refine ⟨s.self.arena,s.topN_tuples,rfl,owns,joining.held.heaped,joining.hits,?_⟩
    rw [Groups.all,current,Option.toList_none,List.append_nil]
    exact joining.held.selects
  | false =>
    simp only [holders,counting,Bool.false_eq_true,if_false,List.singleton_append] at owns
    rw [counting,if_neg Bool.false_ne_true] at current
    have offered : s.self.arena.Owns (s.curr_tuple.str :: s.topN_tuples.map ResultTuple.str ++ []) := by
      rwa [List.append_nil]
    obtain ⟨arena,kept,same,updated⟩ := UpdateHeap_updated env offered joining.held.heaped joining.held.bounded
    have keptOwns := updated.owns
    rw [List.append_nil] at keptOwns
    refine ⟨arena,kept,same,keptOwns,updated.heaped,fun hit => updated.hits (joining.hits hit),?_⟩
    have ranks : kept.map (ResultTuple.rank arena.memory) = kept.map (ResultTuple.rank s.self.arena.memory) :=
      List.map_congr_left fun t member => ResultTuple.rank_congr
        (updated.frame t.str (List.mem_append_left _ (List.mem_map_of_mem member)))
    rw [ranks,Groups.all,current,Option.toList_some,List.map_append]
    exact (updated.selects _ joining.held.selects).offered_perm (List.perm_append_singleton _ _).symm

/-- What the second stage returns: the best groups, best first, and the pool holds
their strings and no others. -/
structure Answered (start : TopNFreqUrls) (all : List Entry) (arena : Arena) (results : List ResultTuple) : Prop where
  owns : arena.Owns (results.map ResultTuple.str)
  hits : start.arena.FreesHit → arena.FreesHit
  ascending : (results.map (ResultTuple.rank arena.memory)).Pairwise (· ≤ ·)
  selects : ∃ taken groups, taken.Perm all ∧ Grouped (counted taken) groups ∧
    Selects start.limit (groups.all.map rankOf) (results.map (ResultTuple.rank arena.memory))

theorem Joining.taken_all (joining : Joining env start all k s rest) (ended : s.finished = true) :
    s.taken.Perm all := by
  have emitted := joining.emitted
  rw [joining.settled.drained (joining.drained ended)] at emitted
  exact emitted.finish.1

theorem Joining.finish (joining : Joining env start all k s rest) (ended : s.finished = true) :
    ∃ final results, MergeSort.finish env s = (true,final,results) ∧
      Answered start all final.arena results := by
  obtain ⟨arena,kept,same,owns,heaped,hits,selects⟩ := joining.offered ended
  have limit : s.self.limit = start.limit := by rw [limit,limit,joining.num_results_]
  have perm := joining.taken_all ended
  rw [limit] at selects
  unfold MergeSort.finish
  rw [same]
  cases kept with
  | nil => exact ⟨_,_,rfl,owns,hits,List.Pairwise.nil,_,_,perm,joining.grouped,selects⟩
  | cons best others =>
    obtain ⟨sorted,filled,permSorted,ascending⟩ := fillResults_sorted env arena.memory
      (List.replicate (best :: others).length default) (best :: others)
      (fun t member => owns.stored t.str (List.mem_map_of_mem member)) heaped (by simp)
    rw [List.drop_of_length_le (by simp),List.append_nil] at filled
    refine ⟨_,_,rfl,?_⟩
    dsimp only
    rw [filled]
    exact ⟨owns.perm (permSorted.symm.map _),hits,ascending,_,_,perm,joining.grouped,
      selects.perm (permSorted.symm.map _)⟩

end Ends
end TopNFreqUrls
end TopNFreq
