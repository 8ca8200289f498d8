import TopNFreq.RowFormat
import TopNFreq.Library.Selection

/-! The merge of the spill files. While rows are left, the heap holds one tuple of
every file that is not drained, and no tuple is above what its file still holds. -/
namespace TopNFreq
open Library.Text Library.InputStream Library.Ordering Library.Selection IStream

/-- A row with the file it comes from. -/
abbrev Entry := Bytes × Int32 × Nat

def Entry.row (e : Entry) : Bytes × Int32 := (e.1,e.2.1)

def ResultTuple.entry (mem : Memory) (t : ResultTuple) : Entry := (t.str.toString mem,t.cnt,t.file_index)

def rowKey (r : Bytes × Int32) : Row := toLex (r.1,r.2.toInt)

/-- An order of rows that the merge respects: coarser than that of the heap. -/
structure MergeOrder (le : Bytes × Int32 → Bytes × Int32 → Prop) : Prop where
  trans : ∀ a b c, le a b → le b c → le a c
  coarser : ∀ a b, rowKey a ≤ rowKey b → le a b

def rowLe (a b : Bytes × Int32) : Prop := rowKey a ≤ rowKey b

def urlLe (a b : Bytes × Int32) : Prop := a.1 ≤ b.1

theorem rowLe_order : MergeOrder rowLe := ⟨fun _ _ _ => le_trans,fun _ _ => id⟩

theorem urlLe_order : MergeOrder urlLe := by
  refine ⟨fun _ _ _ => le_trans,fun a b below => ?_⟩
  rcases Prod.Lex.toLex_le_toLex.mp below with less | equal
  · exact le_of_lt less
  · exact le_of_eq equal.1

namespace FileMerger
variable {env : Platform} {le : Bytes × Int32 → Bytes × Int32 → Prop}

def tagged (rest : Nat → List (Bytes × Int32)) (i : Nat) : List Entry :=
  (rest i).map fun r => (r.1,r.2,i)

/-- All rows not delivered yet: those in the heap and those still in the files. -/
def left (m : FileMerger) (mem : Memory) (rest : Nat → List (Bytes × Int32)) : List Entry :=
  m.res_tuples_heap_.map (ResultTuple.entry mem) ++
    (List.range m.sorted_files_.length).flatMap (tagged rest)

/-- The state of a merge. `rest` are the rows still in the files, `others` the
strings that live in the pool besides those of the heap, and `todo` the files
whose next row has not been asked for. -/
structure Merging (env : Platform) (le : Bytes × Int32 → Bytes × Int32 → Prop) (m : FileMerger)
    (pool : Arena) (others : List StringVal) (rest : Nat → List (Bytes × Int32))
    (todo : Nat → Prop) : Prop where
  owns : pool.Owns (m.res_tuples_heap_.map ResultTuple.str ++ others)
  heap : env.queue.IsHeap (StringLess pool.memory) m.res_tuples_heap_
  flags : m.drained_.length = m.sorted_files_.length
  streams : ∀ i < m.sorted_files_.length, ∃ text,
    Holds (m.sorted_files_.getD i .unopened) text ∧ RowText (rest i) text
  rowsOk : ∀ i < m.sorted_files_.length, ∀ r ∈ rest i, RowOk r
  ascending : ∀ i < m.sorted_files_.length, (rest i).Pairwise le
  indexes : (m.res_tuples_heap_.map ResultTuple.file_index).Nodup
  filed : ∀ t ∈ m.res_tuples_heap_, t.file_index < m.sorted_files_.length ∧ ¬ todo t.file_index ∧
    m.drained_.getD t.file_index true = false
  ahead : ∀ t ∈ m.res_tuples_heap_, ∀ r ∈ rest t.file_index, le (t.view pool.memory) r
  waiting : ∀ i < m.sorted_files_.length, m.drained_.getD i true = false → ¬ todo i →
    i ∈ m.res_tuples_heap_.map ResultTuple.file_index
  exhausted : ∀ i < m.sorted_files_.length, m.drained_.getD i true = true → rest i = []
  known : ∀ i, todo i → i < m.sorted_files_.length ∧ m.drained_.getD i true = false

theorem Merging.stored {m : FileMerger} {pool : Arena} {others : List StringVal}
    {rest : Nat → List (Bytes × Int32)} {todo : Nat → Prop} (merging : Merging env le m pool others rest todo)
    (t : ResultTuple) (member : t ∈ m.res_tuples_heap_) : Stored pool.memory t.str :=
  merging.owns.stored t.str (List.mem_append_left _ (List.mem_map_of_mem member))

section Lists
variable {α : Type}

theorem getD_set_self (items : List α) (i : Nat) (bound : i < items.length) (item fill : α) :
    (items.set i item).getD i fill = item := by
  simp [List.getD_eq_getElem?_getD,bound]

theorem getD_set_ne (items : List α) (i j : Nat) (different : j ≠ i) (item fill : α) :
    (items.set i item).getD j fill = items.getD j fill := by
  simp [List.getD_eq_getElem?_getD,List.getElem?_set_ne (Ne.symm different)]

end Lists

theorem tagged_update (rest : Nat → List (Bytes × Int32)) (i : Nat) (rows : List (Bytes × Int32)) :
    tagged (Function.update rest i rows) = Function.update (tagged rest) i (rows.map fun r => (r.1,r.2,i)) := by
  funext j
  by_cases same : j = i
  · subst same
    simp [tagged]
  · simp [tagged,Function.update_of_ne same]

section Refill
variable {m : FileMerger} {pool : Arena} {others : List StringVal}
  {rest : Nat → List (Bytes × Int32)} {todo : Nat → Prop}

private theorem Merging.drain (merging : Merging env le m pool others rest todo) (i : Nat) (asked : todo i)
    (none : rest i = []) (in_ : IStream) (holds : Holds in_ []) :
    Merging env le {m with sorted_files_ := m.sorted_files_.set i in_, drained_ := m.drained_.set i true}
      pool others rest (fun j => todo j ∧ j ≠ i) := by
  obtain ⟨bound,_⟩ := merging.known i asked
  have boundFlags : i < m.drained_.length := merging.flags ▸ bound
  have other : ∀ j, j ≠ i → (m.drained_.set i true).getD j true = m.drained_.getD j true :=
    fun j different => getD_set_ne m.drained_ i j different true true
  refine ⟨merging.owns,merging.heap,by simpa using merging.flags,?_,?_,?_,merging.indexes,?_,
    merging.ahead,?_,?_,?_⟩
  · intro j within
    by_cases same : j = i
    · subst same
      refine ⟨[],?_,none ▸ .nil⟩
      rw [getD_set_self _ _ bound]
      exact holds
    · rw [getD_set_ne _ _ _ same]
      exact merging.streams j (by simpa using within)
  · exact fun j within => merging.rowsOk j (by simpa using within)
  · exact fun j within => merging.ascending j (by simpa using within)
  · intro t member
    obtain ⟨within,notTodo,flag⟩ := merging.filed t member
    have different : t.file_index ≠ i := fun same => notTodo (same ▸ asked)
    exact ⟨by simpa using within,fun both => notTodo both.1,by rw [other _ different,flag]⟩
  · intro j within flag notTodo
    by_cases same : j = i
    · rw [same,getD_set_self _ _ boundFlags] at flag
      cases flag
    · rw [other j same] at flag
      exact merging.waiting j (by simpa using within) flag fun asking => notTodo ⟨asking,same⟩
  · intro j within flag
    by_cases same : j = i
    · exact same ▸ none
    · rw [other j same] at flag
      exact merging.exhausted j (by simpa using within) flag
  · rintro j ⟨asking,different⟩
    obtain ⟨within,flag⟩ := merging.known j asking
    exact ⟨by simpa using within,by rw [other j different,flag]⟩

/-- The heap after row `r` of file `i` has been stored in the pool and pushed. -/
structure Pushed (env : Platform) (m : FileMerger) (pool later : Arena) (others : List StringVal)
    (i : Nat) (r : Bytes × Int32) (heap : List ResultTuple) : Prop where
  owns : later.Owns (heap.map ResultTuple.str ++ others)
  ordered : env.queue.IsHeap (StringLess later.memory) heap
  entries : (heap.map (ResultTuple.entry later.memory)).Perm
    ((r.1,r.2,i) :: m.res_tuples_heap_.map (ResultTuple.entry pool.memory))

theorem pushed_deposit (owned : pool.Owns (m.res_tuples_heap_.map ResultTuple.str ++ others))
    (heaped : env.queue.IsHeap (StringLess pool.memory) m.res_tuples_heap_) (i : Nat) (r : Bytes × Int32)
    (fits : 1 ≤ r.1.length ∧ r.1.length < MAX_URL_LEN) (tuple : ResultTuple)
    (str : tuple.str = (pool.deposit env r.1).1) (cnt : tuple.cnt = r.2) (index : tuple.file_index = i) :
    Pushed env m pool (pool.deposit env r.1).2 others i r
      (env.queue.push (StringLess (pool.deposit env r.1).2.memory) m.res_tuples_heap_ tuple) := by
  obtain ⟨owns,content,kept⟩ := owned.deposit env r.1 fits
  have frame : ∀ t ∈ m.res_tuples_heap_, (pool.deposit env r.1).2.memory t.str.ptr = pool.memory t.str.ptr :=
    fun t member => kept t.str (List.mem_append_left _ (List.mem_map_of_mem member))
  have perm := env.queue.push_perm (StringLess (pool.deposit env r.1).2.memory) m.res_tuples_heap_ tuple
  have ownsAll : (pool.deposit env r.1).2.Owns
      ((tuple :: m.res_tuples_heap_).map ResultTuple.str ++ others) := by
    simpa [str] using owns
  have stored : ∀ t ∈ tuple :: m.res_tuples_heap_, Stored (pool.deposit env r.1).2.memory t.str :=
    fun t member => ownsAll.stored t.str (List.mem_append_left _ (List.mem_map_of_mem member))
  refine ⟨ownsAll.perm ((perm.symm.map _).append_right _),?_,(perm.map _).trans ?_⟩
  · refine env.queue.push_isHeap _ _ _ (row_strictWeak _ _ stored) ?_
    refine env.queue.isHeap_congr _ _ _ ?_ heaped
    exact fun a ha b hb => (StringLess_congr (frame a ha) (frame b hb)).symm
  · have own : tuple.entry (pool.deposit env r.1).2.memory = (r.1,r.2,i) := by
      simp only [ResultTuple.entry,str,content,cnt,index]
    rw [List.map_cons,own]
    refine List.Perm.cons _ (List.Perm.of_eq (List.map_congr_left fun t member => ?_))
    simp only [ResultTuple.entry,StringVal.toString_congr (frame t member)]

theorem Pushed.indexes {later : Arena} {i : Nat} {r : Bytes × Int32} {heap : List ResultTuple}
    (pushed : Pushed env m pool later others i r heap) :
    (heap.map ResultTuple.file_index).Perm (i :: m.res_tuples_heap_.map ResultTuple.file_index) := by
  have perm := pushed.entries.map fun e => e.2.2
  rwa [List.map_cons,List.map_map,List.map_map] at perm

theorem Pushed.cases {later : Arena} {i : Nat} {r : Bytes × Int32} {heap : List ResultTuple}
    (pushed : Pushed env m pool later others i r heap) (t : ResultTuple) (member : t ∈ heap) :
    t.file_index = i ∧ t.view later.memory = r ∨ ∃ old ∈ m.res_tuples_heap_,
      t.file_index = old.file_index ∧ t.view later.memory = old.view pool.memory := by
  have inside := pushed.entries.mem_iff.mp (List.mem_map_of_mem member)
  rcases List.mem_cons.mp inside with new | old
  · simp only [ResultTuple.entry,Prod.mk.injEq] at new
    exact .inl ⟨new.2.2,Prod.ext new.1 new.2.1⟩
  · obtain ⟨t',memberOld,same⟩ := List.mem_map.mp old
    simp only [ResultTuple.entry,Prod.mk.injEq] at same
    exact .inr ⟨t',memberOld,same.2.2.symm,Prod.ext same.1.symm same.2.1.symm⟩

section Delivery
variable {i : Nat} {r : Bytes × Int32} {rows : List (Bytes × Int32)} {later : Arena} {heap : List ResultTuple}

private theorem Merging.deliver (merging : Merging env le m pool others rest todo) (asked : todo i)
    (head : rest i = r :: rows) (in_ : IStream) (text : Bytes) (holds : Holds in_ text)
    (shape : RowText rows text) (pushed : Pushed env m pool later others i r heap) :
    Merging env le {m with sorted_files_ := m.sorted_files_.set i in_, res_tuples_heap_ := heap}
      later others (Function.update rest i rows) (fun j => todo j ∧ j ≠ i) := by
  obtain ⟨bound,flag⟩ := merging.known i asked
  have apart : ∀ t ∈ m.res_tuples_heap_, t.file_index ≠ i :=
    fun t member same => (merging.filed t member).2.1 (same ▸ asked)
  have inOrder := List.pairwise_cons.mp (head ▸ merging.ascending i bound)
  refine ⟨pushed.owns,pushed.ordered,by simpa using merging.flags,?_,?_,?_,?_,?_,?_,?_,?_,?_⟩
  · intro j within
    by_cases same : j = i
    · subst same
      refine ⟨text,?_,?_⟩
      · rw [getD_set_self _ _ bound]
        exact holds
      · rwa [Function.update_self]
    · rw [getD_set_ne _ _ _ same,Function.update_of_ne same]
      exact merging.streams j (by simpa using within)
  · intro j within q member
    by_cases same : j = i
    · subst same
      rw [Function.update_self] at member
      exact merging.rowsOk j bound q (by simp [head,member])
    · rw [Function.update_of_ne same] at member
      exact merging.rowsOk j (by simpa using within) q member
  · intro j within
    by_cases same : j = i
    · subst same
      rw [Function.update_self]
      exact inOrder.2
    · rw [Function.update_of_ne same]
      exact merging.ascending j (by simpa using within)
  · refine pushed.indexes.nodup_iff.mpr (List.nodup_cons.mpr ⟨?_,merging.indexes⟩)
    intro member
    obtain ⟨t,inside,same⟩ := List.mem_map.mp member
    exact apart t inside same
  · intro t member
    rcases pushed.cases t member with ⟨index,_⟩ | ⟨old,inside,index,_⟩
    · rw [index]
      exact ⟨by simpa using bound,fun both => both.2 rfl,flag⟩
    · obtain ⟨within,notTodo,flagOld⟩ := merging.filed old inside
      rw [index]
      exact ⟨by simpa using within,fun both => notTodo both.1,flagOld⟩
  · intro t member q inside
    rcases pushed.cases t member with ⟨index,view⟩ | ⟨old,memberOld,index,view⟩
    · rw [index,Function.update_self] at inside
      rw [view]
      exact inOrder.1 q inside
    · rw [index,Function.update_of_ne (apart old memberOld)] at inside
      rw [view]
      exact merging.ahead old memberOld q inside
  · intro j within flagJ notTodo
    rw [pushed.indexes.mem_iff]
    by_cases same : j = i
    · exact same ▸ List.mem_cons_self
    · exact List.mem_cons_of_mem _
        (merging.waiting j (by simpa using within) flagJ fun asking => notTodo ⟨asking,same⟩)
  · intro j within flagJ
    by_cases same : j = i
    · rw [same,flag] at flagJ
      cases flagJ
    · rw [Function.update_of_ne same]
      exact merging.exhausted j (by simpa using within) flagJ
  · rintro j ⟨asking,_⟩
    obtain ⟨within,flagJ⟩ := merging.known j asking
    exact ⟨by simpa using within,flagJ⟩

private theorem Pushed.left_perm (pushed : Pushed env m pool later others i r heap)
    (bound : i < m.sorted_files_.length) (head : rest i = r :: rows) (in_ : IStream) :
    (left m pool.memory rest).Perm
      (left {m with sorted_files_ := m.sorted_files_.set i in_, res_tuples_heap_ := heap}
        later.memory (Function.update rest i rows)) := by
  have files := flatMap_range_pop m.sorted_files_.length i bound (tagged rest) (r.1,r.2,i)
    (rows.map fun q => (q.1,q.2,i)) (by simp [tagged,head])
  rw [← tagged_update] at files
  simp only [left,List.length_set]
  exact (files.append_left _).trans (List.perm_middle.trans (pushed.entries.symm.append_right _))

end Delivery

/-- Asking a file for its next row loses none and keeps the state of the merge. -/
theorem Merging.refill (merging : Merging env le m pool others rest todo) (i : Nat) (asked : todo i) :
    ∃ more, Merging env le (m.refill env pool i).1 (m.refill env pool i).2 others more
        (fun j => todo j ∧ j ≠ i) ∧
      (left m pool.memory rest).Perm (left (m.refill env pool i).1 (m.refill env pool i).2.memory more) ∧
      ∀ v ∈ m.res_tuples_heap_.map ResultTuple.str ++ others,
        (m.refill env pool i).2.memory v.ptr = pool.memory v.ptr := by
  obtain ⟨bound,_⟩ := merging.known i asked
  obtain ⟨text,holds,shape⟩ := merging.streams i bound
  cases head : rest i with
  | nil =>
    rw [head] at shape
    obtain rfl := shape.nil_text
    obtain ⟨in_,same,dead⟩ := NextResultTupleInFile_end env (m.sorted_files_.getD i .unopened) pool
      (env.uninit pool.requests) holds
    simp only [FileMerger.refill,same]
    refine ⟨rest,merging.drain i asked head in_ dead,?_,by simp⟩
    simp only [left,List.length_set]
    exact List.Perm.refl _
  | cons r rows =>
    rw [head] at shape
    have okRow := merging.rowsOk i bound r (by simp [head])
    obtain ⟨in_,more,same,holdsMore,shapeMore⟩ := NextResultTupleInFile_row env
      (m.sorted_files_.getD i .unopened) pool (env.uninit pool.requests) r rows text okRow.readable shape holds
    simp only [FileMerger.refill,same]
    have fits : 1 ≤ r.1.length ∧ r.1.length < MAX_URL_LEN :=
      ⟨List.length_pos_iff.mpr okRow.nonempty,okRow.short⟩
    have pushed := pushed_deposit merging.owns merging.heap i r fits {env.uninit pool.requests with
      str := (pool.deposit env r.1).1, cnt := r.2, file_index := i} rfl rfl rfl
    exact ⟨_,merging.deliver asked head in_ more holdsMore shapeMore pushed,
      pushed.left_perm bound head in_,(merging.owns.deposit env r.1 fits).2.2⟩

theorem refill_length (m : FileMerger) (pool : Arena) (i : Nat) :
    (m.refill env pool i).1.sorted_files_.length = m.sorted_files_.length := by
  unfold FileMerger.refill
  split <;> exact List.length_set

end Refill

section Steps
variable {m : FileMerger} {pool : Arena} {others : List StringVal} {rest : Nat → List (Bytes × Int32)}

abbrev Settled (env : Platform) (le : Bytes × Int32 → Bytes × Int32 → Prop) (m : FileMerger)
    (pool : Arena) (others : List StringVal) (rest : Nat → List (Bytes × Int32)) : Prop :=
  Merging env le m pool others rest fun _ => False

theorem Merging.transfer (settled : Settled env le m pool others rest) (arena : Arena)
    (remaining : List StringVal) (owns : arena.Owns (m.res_tuples_heap_.map ResultTuple.str ++ remaining))
    (frame : ∀ t ∈ m.res_tuples_heap_, arena.memory t.str.ptr = pool.memory t.str.ptr) :
    Settled env le m arena remaining rest ∧ left m arena.memory rest = left m pool.memory rest := by
  have same : ∀ t ∈ m.res_tuples_heap_, t.str.toString arena.memory = t.str.toString pool.memory :=
    fun t member => StringVal.toString_congr (frame t member)
  refine ⟨⟨owns,?_,settled.flags,settled.streams,settled.rowsOk,settled.ascending,settled.indexes,settled.filed,
    ?_,settled.waiting,settled.exhausted,settled.known⟩,?_⟩
  · refine env.queue.isHeap_congr _ _ _ ?_ settled.heap
    exact fun a memberA b memberB => (StringLess_congr (frame a memberA) (frame b memberB)).symm
  · intro t member r inside
    rw [ResultTuple.view,same t member]
    exact settled.ahead t member r inside
  · rw [left,left]
    congr 1
    refine List.map_congr_left fun t member => ?_
    rw [ResultTuple.entry,ResultTuple.entry,same t member]

theorem Merging.drained (settled : Settled env le m pool others rest) (empty : m.res_tuples_heap_ = []) :
    left m pool.memory rest = [] := by
  rw [left,empty,List.map_nil,List.nil_append,List.flatMap_eq_nil_iff]
  intro i member
  have bound := List.mem_range.mp member
  cases flag : m.drained_.getD i true with
  | true => simp [tagged,settled.exhausted i bound flag]
  | false => simpa [empty] using settled.waiting i bound flag id

private theorem Merging.popped (settled : Settled env le m pool others rest) (top : ResultTuple)
    (heap : List ResultTuple) (shape : m.res_tuples_heap_ = top :: heap) :
    Merging env le {m with res_tuples_heap_ := env.queue.pop (StringLess pool.memory) (top :: heap)}
      pool (top.str :: others) rest (fun j => j = top.file_index) := by
  have perm := env.queue.pop_perm (StringLess pool.memory) top heap
  have stored : ∀ t ∈ top :: heap, Stored pool.memory t.str := by
    intro t member
    exact settled.stored t (shape ▸ member)
  have order := row_strictWeak pool.memory (top :: heap) stored
  have old : ∀ t ∈ env.queue.pop (StringLess pool.memory) (top :: heap), t ∈ m.res_tuples_heap_ := by
    intro t member
    rw [shape]
    exact List.mem_cons_of_mem _ (perm.mem_iff.mp member)
  have distinct := settled.indexes
  rw [shape,List.map_cons,List.nodup_cons] at distinct
  have heaped := settled.heap
  rw [shape] at heaped
  have owns := settled.owns
  rw [shape,List.map_cons,List.cons_append] at owns
  refine ⟨owns.perm ?_,env.queue.pop_isHeap _ top heap order heaped,settled.flags,settled.streams,
    settled.rowsOk,settled.ascending,(perm.map _).nodup_iff.mpr distinct.2,?_,
    fun t member => settled.ahead t (old t member),?_,settled.exhausted,?_⟩
  · exact List.perm_middle.symm.trans ((perm.symm.map _).append_right _)
  · intro t member
    obtain ⟨within,_,flag⟩ := settled.filed t (old t member)
    refine ⟨within,?_,flag⟩
    rintro same
    exact distinct.1 (same ▸ List.mem_map_of_mem (perm.mem_iff.mp member))
  · intro j within flag different
    have waiting := settled.waiting j within flag id
    rw [shape,List.map_cons] at waiting
    rcases List.mem_cons.mp waiting with same | inside
    · exact absurd same different
    · exact (perm.map _).mem_iff.mpr inside
  · rintro j rfl
    obtain ⟨within,_,flag⟩ := settled.filed top (by simp [shape])
    exact ⟨within,flag⟩

private theorem Merging.top_least (order : MergeOrder le) (settled : Settled env le m pool others rest)
    (top : ResultTuple) (heap : List ResultTuple) (shape : m.res_tuples_heap_ = top :: heap) :
    ∀ e ∈ heap.map (ResultTuple.entry pool.memory) ++
      (List.range m.sorted_files_.length).flatMap (tagged rest), le (top.view pool.memory) e.row := by
  have stored : ∀ t ∈ top :: heap, Stored pool.memory t.str :=
    fun t member => settled.stored t (shape ▸ member)
  have heaped := settled.heap
  rw [shape] at heaped
  have inHeap : ∀ t ∈ heap, le (top.view pool.memory) (t.view pool.memory) := by
    intro t member
    have notLess := env.queue.top_max _ top heap (row_strictWeak _ _ stored) heaped t member
    refine order.coarser _ _ (not_lt.mp fun below => ?_)
    exact Bool.eq_false_iff.mp notLess
      ((StringLess_iff _ _ _ (stored top (by simp)) (stored t (by simp [member]))).mpr below)
  intro e member
  rcases List.mem_append.mp member with inside | filed
  · obtain ⟨t,memberT,rfl⟩ := List.mem_map.mp inside
    exact inHeap t memberT
  · obtain ⟨j,range,memberJ⟩ := List.mem_flatMap.mp filed
    obtain ⟨r,memberR,rfl⟩ := List.mem_map.mp memberJ
    have bound := List.mem_range.mp range
    cases flag : m.drained_.getD j true with
    | true => simp [settled.exhausted j bound flag] at memberR
    | false =>
      -- The tuple of file `j` lies between the top and the rows of the file.
      obtain ⟨t,memberT,rfl⟩ := List.mem_map.mp (settled.waiting j bound flag id)
      have behind := settled.ahead t memberT r memberR
      rw [shape] at memberT
      rcases List.mem_cons.mp memberT with rfl | later
      · exact behind
      · exact order.trans _ _ _ (inHeap t later) behind

/-- A call on a non-empty heap delivers a least one of the rows that are left and
leaves the others. -/
theorem Merging.next (order : MergeOrder le) (settled : Settled env le m pool others rest)
    (top : ResultTuple) (heap : List ResultTuple) (shape : m.res_tuples_heap_ = top :: heap)
    (res : ResultTuple) :
    ∃ after arena more, m.NextResultTuple env pool res = (true,after,arena,top) ∧
      Settled env le after arena (top.str :: others) more ∧
      (left m pool.memory rest).Perm (top.entry pool.memory :: left after arena.memory more) ∧
      (∀ e ∈ left after arena.memory more, le (top.view pool.memory) e.row) ∧
      ∀ v ∈ top.str :: others, arena.memory v.ptr = pool.memory v.ptr := by
  have popped := settled.popped top heap shape
  obtain ⟨_,_,flag⟩ := settled.filed top (by simp [shape])
  obtain ⟨more,kept,perm,frame⟩ := popped.refill top.file_index rfl
  let refilled := FileMerger.refill env
    {m with res_tuples_heap_ := env.queue.pop (StringLess pool.memory) (top :: heap)} pool top.file_index
  refine ⟨refilled.1,refilled.2,more,?_,?_,?_,?_,fun v member => frame v (List.mem_append_right _ member)⟩
  · unfold NextResultTuple
    rw [shape]
    simp only [flag,Bool.false_eq_true,if_false]
    rfl
  · have none : (fun j => j = top.file_index ∧ j ≠ top.file_index) = fun _ => False := by
      funext j
      simp
    rwa [none] at kept
  · refine List.Perm.trans ?_ (perm.cons _)
    simp only [left,shape,List.map_cons,List.cons_append]
    exact (((env.queue.pop_perm (StringLess pool.memory) top heap).symm.map _).append_right _).cons _
  · intro e member
    refine settled.top_least order top heap shape e ?_
    have inside := perm.mem_iff.mpr member
    simp only [left] at inside
    exact (((env.queue.pop_perm (StringLess pool.memory) top heap).map _).append_right _).mem_iff.mp inside

theorem NextResultTuple_empty (m : FileMerger) (pool : Arena) (res : ResultTuple)
    (empty : m.res_tuples_heap_ = []) : m.NextResultTuple env pool res = (false,m,pool,res) := by
  unfold NextResultTuple
  rw [empty]

theorem NextResultTuple_length (env : Platform) (m : FileMerger) (pool : Arena) (res : ResultTuple) :
    (m.NextResultTuple env pool res).2.1.sorted_files_.length = m.sorted_files_.length := by
  unfold NextResultTuple
  split
  · rfl
  · dsimp only
    split
    · rfl
    · exact refill_length _ _ _

end Steps
end FileMerger
end TopNFreq
