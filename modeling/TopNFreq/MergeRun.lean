import TopNFreq.Merge

/-! A merge from `Open` to its last row: what the streams hold comes out sorted,
each row once. -/
namespace TopNFreq
open Library.Text Library.InputStream Library.Selection IStream FileManager

namespace FileMerger
variable {env : Env} {disk : Disk} {le : Bytes × Int32 → Bytes × Int32 → Prop}

/-- A merger over `k` sound streams with the given texts: handed over, as the
tests do, or opened as spill files. -/
inductive Sources (env : Env) (disk : Disk) (texts : Nat → Bytes) (k : Nat) : FileMerger → Prop
  | inputs : Sources env disk texts k (.ofInputs ((List.range k).map fun i => .opened (texts i) none))
  | files (base_file_name : Bytes)
      (present : ∀ i < k, disk (OutputFileName base_file_name i) = some (texts i))
      (opens : ∀ i < k, env.faults.openSpill i = false)
      (reads : ∀ i < k, env.faults.readSpill i = none) : Sources env disk texts k (.new base_file_name)

structure Prepared (env : Env) (disk : Disk) (m : FileMerger) (k : Nat) (streams : List IStream) : Prop where
  prepared : (let sized := {m with drained_ := resize m.drained_ k false}
    if sized.test_mode then sized else sized.OpenInternal env disk k) =
      {m with sorted_files_ := streams, drained_ := List.replicate k false}
  size : streams.length = k
  empty : m.res_tuples_heap_ = []

theorem OpenInternal_files (m : FileMerger) (k : Nat) :
    m.OpenInternal env disk k =
      {m with
        sorted_files_ := m.sorted_files_ ++ (List.range k).map (openSpill env disk m.base_file_name_)
        drained_ := (List.range k).foldl (fun flags i => flags.set i false) m.drained_} := by
  unfold OpenInternal
  induction k with
  | zero => simp
  | succ k ih =>
    rw [List.range_succ,List.foldl_append,ih]
    simp

private theorem replicate_cleared (k : Nat) (indexes : List Nat) :
    indexes.foldl (fun flags i => flags.set i false) (List.replicate k false) = List.replicate k false := by
  induction indexes with
  | nil => rfl
  | cons i rest ih => rwa [List.foldl_cons,List.set_replicate_self]

private theorem resize_nil (k : Nat) : resize [] k false = List.replicate k false := by
  simp [resize]

theorem prepared_new (base_file_name : Bytes) (k : Nat) :
    Prepared env disk (.new base_file_name) k ((List.range k).map (openSpill env disk base_file_name)) := by
  refine ⟨?_,by simp,rfl⟩
  simp only [FileMerger.new,resize_nil,Bool.false_eq_true,if_false,OpenInternal_files,
    List.nil_append,replicate_cleared]

theorem Sources.prepared {texts : Nat → Bytes} {k : Nat} {m : FileMerger}
    (sources : Sources env disk texts k m) :
    Prepared env disk m k ((List.range k).map fun i => .opened (texts i) none) := by
  cases sources with
  | inputs =>
    refine ⟨?_,by simp,rfl⟩
    simp only [FileMerger.ofInputs,resize_nil,if_true]
  | files base_file_name present opens reads =>
    have streams : (List.range k).map (openSpill env disk base_file_name) =
        (List.range k).map fun i => .opened (texts i) none := by
      refine List.map_congr_left fun i member => ?_
      have bound := List.mem_range.mp member
      simp only [openSpill,opens i bound,Bool.false_eq_true,if_false,present i bound,reads i bound]
    exact streams ▸ prepared_new base_file_name k

def fill (env : Platform) (s : FileMerger × Arena) (i : Nat) : FileMerger × Arena :=
  if s.1.drained_.getD i true then s else s.1.refill env s.2 i

theorem Prepared.open_eq {m : FileMerger} {k : Nat} {streams : List IStream}
    (prepared : Prepared env disk m k streams) (pool : Arena) :
    m.Open env disk pool k = (true,(List.range k).foldl (fill env.toPlatform)
      ({m with sorted_files_ := streams, drained_ := List.replicate k false},pool)) := by
  rw [← prepared.prepared]
  rfl

section Opening
variable {pool : Arena} {others : List StringVal} {rows : Nat → List (Bytes × Int32)}
  {texts : Nat → Bytes} {k : Nat} {m : FileMerger}

private theorem merging_start (empty : m.res_tuples_heap_ = []) (size : m.sorted_files_.length = k)
    (flags : m.drained_ = List.replicate k false) (owns : pool.Owns others)
    (holds : ∀ i < k, Holds (m.sorted_files_.getD i .unopened) (texts i))
    (shape : ∀ i < k, RowText (rows i) (texts i)) (rowsOk : ∀ i < k, ∀ r ∈ rows i, RowOk r)
    (ascending : ∀ i < k, (rows i).Pairwise le) :
    Merging env.toPlatform le m pool others rows (fun j => 0 ≤ j ∧ j < k) := by
  have flag : ∀ i < k, m.drained_.getD i true = false := by
    intro i bound
    simp [flags,List.getD_eq_getElem?_getD,bound]
  subst size
  refine ⟨by simpa [empty] using owns,empty ▸ env.queue.isHeap_nil _,by simp [flags],?_,rowsOk,ascending,
    by simp [empty],by simp [empty],by simp [empty],?_,?_,?_⟩
  · exact fun i bound => ⟨texts i,holds i bound,shape i bound⟩
  · exact fun i bound _ notTodo => absurd ⟨Nat.zero_le i,bound⟩ notTodo
  · intro i bound drained
    rw [flag i bound] at drained
    cases drained
  · exact fun i todo => ⟨todo.2,flag i todo.2⟩

private theorem fill_range (start : Merging env.toPlatform le m pool others rows (fun j => 0 ≤ j ∧ j < k))
    (n : Nat) (bound : n ≤ k) :
    ∃ more, Merging env.toPlatform le ((List.range n).foldl (fill env.toPlatform) (m,pool)).1
        ((List.range n).foldl (fill env.toPlatform) (m,pool)).2 others more (fun j => n ≤ j ∧ j < k) ∧
      (left m pool.memory rows).Perm (left ((List.range n).foldl (fill env.toPlatform) (m,pool)).1
        ((List.range n).foldl (fill env.toPlatform) (m,pool)).2.memory more) ∧
      ((List.range n).foldl (fill env.toPlatform) (m,pool)).1.sorted_files_.length = m.sorted_files_.length ∧
      ∀ v ∈ others,
        ((List.range n).foldl (fill env.toPlatform) (m,pool)).2.memory v.ptr = pool.memory v.ptr := by
  induction n with
  | zero => exact ⟨rows,start,List.Perm.refl _,rfl,fun _ _ => rfl⟩
  | succ n ih =>
    obtain ⟨more,merging,perm,size,frame⟩ := ih (by omega)
    rw [List.range_succ,List.foldl_append,List.foldl_cons,List.foldl_nil]
    generalize (List.range n).foldl (fill env.toPlatform) (m,pool) = s at merging perm size frame ⊢
    obtain ⟨_,flag⟩ := merging.known n ⟨le_refl n,bound⟩
    have next : fill env.toPlatform s n = s.1.refill env.toPlatform s.2 n := by
      simp only [fill,flag,Bool.false_eq_true,if_false]
    obtain ⟨later,kept,permMore,frameMore⟩ := merging.refill n ⟨le_refl n,bound⟩
    have advance : (fun j => (n ≤ j ∧ j < k) ∧ j ≠ n) = fun j => n + 1 ≤ j ∧ j < k := by
      funext j
      simp only [eq_iff_iff]
      omega
    rw [advance] at kept
    rw [next]
    exact ⟨later,kept,perm.trans permMore,(refill_length _ _ _).trans size,
      fun v member => (frameMore v (List.mem_append_right _ member)).trans (frame v member)⟩

theorem Open_settled {streams : List IStream} (prepared : Prepared env disk m k streams)
    (owns : pool.Owns others) (holds : ∀ i < k, Holds (streams.getD i .unopened) (texts i))
    (shape : ∀ i < k, RowText (rows i) (texts i)) (rowsOk : ∀ i < k, ∀ r ∈ rows i, RowOk r)
    (ascending : ∀ i < k, (rows i).Pairwise le) :
    ∃ more, Settled env.toPlatform le (m.Open env disk pool k).2.1 (m.Open env disk pool k).2.2 others more ∧
      ((List.range k).flatMap (tagged rows)).Perm
        (left (m.Open env disk pool k).2.1 (m.Open env disk pool k).2.2.memory more) ∧
      (m.Open env disk pool k).2.1.sorted_files_.length = k ∧
      ∀ v ∈ others, (m.Open env disk pool k).2.2.memory v.ptr = pool.memory v.ptr := by
  have start : Merging env.toPlatform le
      {m with sorted_files_ := streams, drained_ := List.replicate k false} pool others rows
      (fun j => 0 ≤ j ∧ j < k) :=
    merging_start prepared.empty prepared.size rfl owns holds shape rowsOk ascending
  obtain ⟨more,merging,perm,size,frame⟩ := fill_range start k (le_refl k)
  have nothing : (fun j => k ≤ j ∧ j < k) = fun _ => False := by
    funext j
    simp only [eq_iff_iff,iff_false]
    omega
  rw [nothing] at merging
  rw [prepared.open_eq]
  refine ⟨more,merging,?_,size.trans prepared.size,frame⟩
  simpa [left,prepared.empty,prepared.size] using perm

end Opening

section Ending
variable (env : Platform)

def pending (m : FileMerger) : Nat :=
  (m.sorted_files_.map fun in_ => in_.after.length).sum + m.res_tuples_heap_.length

private theorem sum_set_after (files : List IStream) (i : Nat) (in_ : IStream) :
    ((files.set i in_).map fun in_ => in_.after.length).sum + (files.getD i .unopened).after.length ≤
      (files.map fun in_ => in_.after.length).sum + in_.after.length := by
  induction files generalizing i with
  | nil => simp [unopened]
  | cons head tail ih =>
    cases i with
    | zero =>
      simp only [List.set_cons_zero,List.map_cons,List.sum_cons,List.getD_cons_zero]
      omega
    | succ i =>
      have rest := ih i
      simp only [List.set_cons_succ,List.map_cons,List.sum_cons,List.getD_cons_succ]
      omega

theorem refill_pending (m : FileMerger) (pool : Arena) (i : Nat) :
    (m.refill env pool i).1.pending ≤ m.pending := by
  unfold FileMerger.refill
  have taken := NextResultTupleInFile_after env (m.sorted_files_.getD i .unopened) pool (env.uninit pool.requests)
  have kept := NextResultTupleInFile_after_le env (m.sorted_files_.getD i .unopened) pool
    (env.uninit pool.requests)
  split
  · rename_i in_ arena tuple same
    have total := sum_set_after m.sorted_files_ i in_
    simp only [same] at kept
    simp only [pending]
    omega
  · rename_i in_ arena tuple same
    have total := sum_set_after m.sorted_files_ i in_
    have grown := (env.queue.push_perm (StringLess arena.memory) m.res_tuples_heap_
      {tuple with file_index := i}).length_eq
    simp only [same,forall_const] at taken
    simp only [List.length_cons] at grown
    simp only [pending,grown]
    omega

theorem NextResultTuple_pending (m : FileMerger) (pool : Arena) (res : ResultTuple)
    (delivered : (m.NextResultTuple env pool res).1 = true) :
    (m.NextResultTuple env pool res).2.1.pending < m.pending := by
  unfold NextResultTuple at delivered ⊢
  split
  · rename_i empty
    simp [empty] at delivered
  · rename_i top heap shape
    have shorter := (env.queue.pop_perm (StringLess pool.memory) top heap).length_eq
    have popped : ({m with res_tuples_heap_ := env.queue.pop (StringLess pool.memory) (top :: heap)} :
        FileMerger).pending < m.pending := by
      simp only [pending,shorter,shape,List.length_cons]
      omega
    dsimp only
    split
    · exact popped
    · exact (refill_pending env _ pool top.file_index).trans_lt popped

end Ending

section Calls
variable {env : Platform} {le : Bytes × Int32 → Bytes × Int32 → Prop}

/-- The answers of `calls` successive calls of `NextResultTuple`: the entry that
was delivered, `none` for the result `false`. -/
def answers (env : Platform) : Nat → FileMerger → Arena → ResultTuple → List (Option Entry)
  | 0, _, _, _ => []
  | calls+1, m, pool, res =>
    match m.NextResultTuple env pool res with
    | (delivered,m,pool,res) =>
      (if delivered then some (res.entry pool.memory) else none) :: answers env calls m pool res

theorem answers_drained (m : FileMerger) (pool : Arena) (res : ResultTuple)
    (empty : m.res_tuples_heap_ = []) (calls : Nat) :
    answers env calls m pool res = List.replicate calls none := by
  induction calls with
  | zero => rfl
  | succ calls ih =>
    rw [answers,NextResultTuple_empty m pool res empty]
    simp only [Bool.false_eq_true,if_false,ih,List.replicate_succ]

theorem Merging.answers (order : MergeOrder le) {m : FileMerger} {pool : Arena} {others : List StringVal}
    {rest : Nat → List (Bytes × Int32)} (settled : Settled env le m pool others rest) (res : ResultTuple) :
    ∃ out : List Entry, out.Perm (left m pool.memory rest) ∧
      out.Pairwise (fun a b => le a.row b.row) ∧
      ∀ calls, FileMerger.answers env calls m pool res =
        (out.map some).take calls ++ List.replicate (calls - out.length) none := by
  generalize size : (left m pool.memory rest).length = count
  induction count generalizing m pool others rest res with
  | zero =>
    have none := List.eq_nil_of_length_eq_zero size
    have empty : m.res_tuples_heap_ = [] := by simpa [left] using (List.append_eq_nil_iff.mp none).1
    exact ⟨[],none ▸ List.Perm.refl _,List.Pairwise.nil,fun calls => by
      simpa using answers_drained m pool res empty calls⟩
  | succ count ih =>
    cases shape : m.res_tuples_heap_ with
    | nil => simp [settled.drained shape] at size
    | cons top heap =>
      obtain ⟨after,arena,more,call,next,perm,least,frame⟩ := settled.next order top heap shape res
      have fewer : (left after arena.memory more).length = count := by
        have lengths := perm.length_eq
        simp only [List.length_cons] at lengths
        omega
      obtain ⟨out,same,ascending,calls⟩ := ih next top fewer
      refine ⟨top.entry pool.memory :: out,(same.cons _).trans perm.symm,
        List.pairwise_cons.mpr ⟨?_,ascending⟩,?_⟩
      · exact fun e member => least e (same.mem_iff.mp member)
      · intro calls
        cases calls with
        | zero => simp [FileMerger.answers]
        | succ n =>
          have entry : top.entry arena.memory = top.entry pool.memory := by
            simp only [ResultTuple.entry,StringVal.toString_congr (frame top.str (by simp))]
          rw [FileMerger.answers,call]
          simp only [if_true,calls n,entry,List.map_cons,List.take_succ_cons,List.cons_append,
            List.length_cons,Nat.add_sub_add_right]

end Calls
end FileMerger

/-- The merge delivers the rows of all streams, ascending by URL and count, each
exactly once, and then answers false for ever. -/
theorem merge_sorted_permutation (env : Env) (disk : Disk) (k : Nat) (texts : Nat → Bytes)
    (rows : Nat → List (Bytes × Int32)) (m : FileMerger) (sources : FileMerger.Sources env disk texts k m)
    (shape : ∀ i < k, RowText (rows i) (texts i))
    (rowsOk : ∀ i < k, ∀ r ∈ rows i, RowOk r)
    (ascending : ∀ i < k, (rows i).Pairwise rowLe)
    (pool : Arena) (others : List StringVal) (owns : pool.Owns others) (res : ResultTuple) :
    ∃ out : List Entry, out.Perm ((List.range k).flatMap (FileMerger.tagged rows)) ∧
      out.Pairwise (fun a b => rowLe a.row b.row) ∧
      ∀ calls, FileMerger.answers env.toPlatform calls (m.Open env disk pool k).2.1
          (m.Open env disk pool k).2.2 res =
        (out.map some).take calls ++ List.replicate (calls - out.length) none := by
  have holds : ∀ i < k, Holds (((List.range k).map fun i => IStream.opened (texts i) none).getD i .unopened)
      (texts i) := by
    intro i bound
    simpa [List.getD_eq_getElem?_getD,bound] using holds_opened (texts i)
  obtain ⟨more,settled,perm,_,_⟩ := FileMerger.Open_settled sources.prepared owns holds shape rowsOk ascending
  obtain ⟨out,same,sorted,calls⟩ := settled.answers rowLe_order res
  exact ⟨out,same.trans perm.symm,sorted,calls⟩

/-- Three streams: one is empty, one ends without a newline, and `b` with the
count 2 is in two of them. -/
theorem merge_sorted_permutation_three :
    ∃ out : List Entry, out.Perm ([([97],7,0),([98],2,0),([98],2,2)] : List Entry) ∧
      out.Pairwise (fun a b => rowLe a.row b.row) ∧
      ∀ calls, FileMerger.answers Env.reference.toPlatform calls
          ((FileMerger.ofInputs [.opened [97,9,55,10,98,9,50,10] none,.opened [] none,
            .opened [98,9,50] none]).Open Env.reference (fun _ => none) (Arena.new 1024) 3).2.1
          ((FileMerger.ofInputs [.opened [97,9,55,10,98,9,50,10] none,.opened [] none,
            .opened [98,9,50] none]).Open Env.reference (fun _ => none) (Arena.new 1024) 3).2.2 default =
        (out.map some).take calls ++ List.replicate (calls - out.length) none := by
  let rows : Nat → List (Bytes × Int32) := fun i => [[([97],7),([98],2)],[],[([98],2)]].getD i []
  let texts : Nat → Bytes := fun i => [[97,9,55,10,98,9,50,10],[],[98,9,50]].getD i []
  have shape : ∀ i < 3, RowText (rows i) (texts i) := by
    intro i bound
    obtain rfl | rfl | rfl : i = 0 ∨ i = 1 ∨ i = 2 := by omega
    · exact .cons ([97],7) [([98],2)] [98,9,50,10] (.cons ([98],2) [] [] .nil)
    · exact .nil
    · exact .last ([98],2)
  have rowsOk : ∀ i < 3, ∀ r ∈ rows i, RowOk r := by
    intro i bound r member
    have small : r = ([97],7) ∨ r = ([98],2) := by
      obtain rfl | rfl | rfl : i = 0 ∨ i = 1 ∨ i = 2 := by omega
      all_goals simp [rows] at member <;> tauto
    rcases small with rfl | rfl <;> exact ⟨by decide,by decide,by decide,by decide⟩
  have ascending : ∀ i < 3, (rows i).Pairwise rowLe := by
    intro i bound
    have below : rowLe ([97],7) ([98],2) := Prod.Lex.toLex_le_toLex.mpr (.inl (by decide))
    obtain rfl | rfl | rfl : i = 0 ∨ i = 1 ∨ i = 2 := by omega
    all_goals simp [rows,below]
  have sources : FileMerger.Sources Env.reference (fun _ => none) texts 3
      (.ofInputs [.opened [97,9,55,10,98,9,50,10] none,.opened [] none,.opened [98,9,50] none]) := .inputs
  have entries : (List.range 3).flatMap (FileMerger.tagged rows) =
    [([97],7,0),([98],2,0),([98],2,2)] := rfl
  rw [← entries]
  exact merge_sorted_permutation Env.reference (fun _ => none) 3 texts rows _ sources shape rowsOk ascending
    (Arena.new 1024) [] (Arena.Owns.empty 1024) default

end TopNFreq
