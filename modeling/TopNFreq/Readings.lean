import TopNFreq.FaultRuns
import TopNFreq.Library.Interleaving

/-! The merger over files with any content, also a corrupt one: the rows that can be
read from each file are delivered once and in their order, and only from a file
whose next row no other one is before. -/
namespace TopNFreq
open Library.Text Library.InputStream Library.Interleaving IStream FileManager

/-- Reading `rows` leads from a stream to a later one. A count that cannot be read is
what an uninitialised tuple holds at that time. -/
inductive ReadTo (in_ : IStream) : List (Bytes × Int32) → IStream → Prop
  | nothing : ReadTo in_ [] in_
  | row (rows : List (Bytes × Int32)) (last next : IStream) (row : Bytes × Int32) (prior : Int32)
      (read : ReadTo in_ rows last) (found : readRow prior last = some (row,next)) :
      ReadTo in_ (rows ++ [row]) next

/-- `rows` are all rows that a stream yields. -/
def Readings (in_ : IStream) (rows : List (Bytes × Int32)) : Prop :=
  ∃ last, ReadTo in_ rows last ∧ readRow 0 last = none

theorem ReadTo.urls {in_ last : IStream} {rows : List (Bytes × Int32)} (read : ReadTo in_ rows last) (prior : Int32) :
    (rowsIn prior in_).map Prod.fst = rows.map Prod.fst ++ (rowsIn prior last).map Prod.fst := by
  induction read with
  | nothing => rfl
  | row rows last next row held read found ih =>
    rcases readRow_prior held prior last with ⟨none,_⟩ | ⟨url,cnt,other,later,first,second⟩
    · rw [none] at found
      cases found
    · rw [first] at found
      cases found
      rw [ih,rowsIn_some second,List.map_append,List.append_assoc]
      rfl

/-- Which URLs a stream yields does not depend on uninitialised tuples. -/
theorem Readings.urls {in_ : IStream} {rows : List (Bytes × Int32)} (readings : Readings in_ rows) (prior : Int32) :
    rows.map Prod.fst = (rowsIn prior in_).map Prod.fst := by
  obtain ⟨last,read,ended⟩ := readings
  have none : readRow prior last = none := by
    rcases readRow_prior 0 prior last with ⟨_,none⟩ | ⟨_,_,_,_,found,_⟩
    · exact none
    · rw [found] at ended
      cases ended
  rw [read.urls prior,rowsIn_none none,List.map_nil,List.append_nil]

theorem readRow_empty {in_ : IStream} (holds : Holds in_ []) (prior : Int32) : readRow prior in_ = none := by
  obtain ⟨none,_⟩ := ReadLine_holds in_ [] MAX_URL_LEN tab (by decide) holds
  rwa [nextLine_nil,Option.map_none,← readRow_none prior] at none

theorem readRow_text {in_ : IStream} {text : Bytes} (holds : Holds in_ text) (r : Bytes × Int32)
    (rows : List (Bytes × Int32)) (readable : RowReadable r) (shape : RowText (r :: rows) text) (prior : Int32) :
    ∃ next more, readRow prior in_ = some (r,next) ∧ Holds next more ∧ RowText rows more := by
  obtain ⟨next,more,same,later,rest⟩ := FileMerger.NextResultTupleInFile_row Platform.reference in_ (Arena.new 0)
    {(default : ResultTuple) with cnt := prior} r rows text readable shape holds
  cases read : readRow prior in_ with
  | none =>
    rw [FileMerger.NextResultTupleInFile_none _ _ _ {(default : ResultTuple) with cnt := prior} read] at same
    cases congrArg Prod.fst same
  | some pair =>
    obtain ⟨row,behind⟩ := pair
    rw [FileMerger.NextResultTupleInFile_some _ _ behind _ {(default : ResultTuple) with cnt := prior} row read] at same
    have streams := congrArg (fun answer => answer.2.1) same
    have tuples := congrArg (fun answer => answer.2.2.2.cnt) same
    have arenas := congrArg (fun answer => answer.2.2.2.str.toString answer.2.2.1.memory) same
    dsimp only at streams tuples arenas
    rw [Arena.deposit_toString,Arena.deposit_toString] at arenas
    exact ⟨next,more,by rw [streams,Prod.ext arenas tuples],later,rest⟩

theorem readRow_fits {prior : Int32} {in_ next : IStream} {row : Bytes × Int32}
    (found : readRow prior in_ = some (row,next)) : 1 ≤ row.1.length ∧ row.1.length < MAX_URL_LEN := by
  cases read : (ReadLine in_ MAX_URL_LEN tab).2 with
  | none =>
    rw [(readRow_none prior in_).mpr read] at found
    cases found
  | some url =>
    rw [readRow_some prior in_ url read] at found
    cases found
    obtain ⟨positive,short,_⟩ := ReadLine_some in_ MAX_URL_LEN tab (by decide) url read
    exact ⟨positive,short⟩

/-- From well-formed rows those rows are read. -/
theorem Readings.text {in_ : IStream} {text : Bytes} {rows found : List (Bytes × Int32)} (holds : Holds in_ text)
    (shape : RowText rows text) (readable : ∀ r ∈ rows, RowReadable r) (readings : Readings in_ found) :
    found = rows := by
  obtain ⟨last,read,ended⟩ := readings
  have parts : ∃ rest more, rows = found ++ rest ∧ RowText rest more ∧ Holds last more := by
    clear ended
    induction read with
    | nothing => exact ⟨rows,text,rfl,shape,holds⟩
    | row before last next row prior read found ih =>
      obtain ⟨rest,more,split,left,behind⟩ := ih
      cases rest with
      | nil =>
        obtain rfl := left.nil_text
        rw [readRow_empty behind prior] at found
        cases found
      | cons r rest =>
        obtain ⟨_,later,same,holdsLater,shapeLater⟩ := readRow_text behind r rest
          (readable r (by simp [split])) left prior
        rw [same] at found
        cases found
        exact ⟨rest,later,by rw [split,List.append_assoc]; rfl,shapeLater,holdsLater⟩
  obtain ⟨rest,more,split,left,behind⟩ := parts
  cases rest with
  | nil => rw [split,List.append_nil]
  | cons r rest =>
    obtain ⟨_,_,same,_⟩ := readRow_text behind r rest (readable r (by simp [split])) left 0
    rw [same] at ended
    cases ended

/-- The order in which the merge heap puts rows. -/
def rowBefore (a b : Bytes × Int32) : Prop := rowKey a < rowKey b

namespace FileMerger

/-- The rows of the file `j` that are in the heap. -/
def heads (m : FileMerger) (mem : Memory) (j : Nat) : List (Bytes × Int32) :=
  ((m.res_tuples_heap_.map (ResultTuple.entry mem)).filter (·.2.2 = j)).map Entry.row

/-- The state of a merger on streams of any content. `files` are the rows read so far,
`others` the strings in the pool besides those of the heap, and `todo` the files
whose next row has not been asked for. -/
structure Reads (env : Platform) (m : FileMerger) (pool : Arena) (others : List StringVal)
    (streams : Nat → IStream) (files : Nat → List (Bytes × Int32)) (todo : Nat → Prop) : Prop where
  owns : pool.Owns (m.res_tuples_heap_.map ResultTuple.str ++ others)
  heap : env.queue.IsHeap (StringLess pool.memory) m.res_tuples_heap_
  flags : m.drained_.length = m.sorted_files_.length
  indexes : (m.res_tuples_heap_.map ResultTuple.file_index).Nodup
  filed : ∀ t ∈ m.res_tuples_heap_, t.file_index < m.sorted_files_.length ∧ ¬ todo t.file_index ∧
    m.drained_.getD t.file_index true = false
  going : ∀ i < m.sorted_files_.length, m.drained_.getD i true = false →
    ReadTo (streams i) (files i) (m.sorted_files_.getD i .unopened)
  ended : ∀ i < m.sorted_files_.length, m.drained_.getD i true = true → Readings (streams i) (files i)
  waiting : ∀ i < m.sorted_files_.length, m.drained_.getD i true = false → ¬ todo i →
    i ∈ m.res_tuples_heap_.map ResultTuple.file_index
  outside : ∀ i, m.sorted_files_.length ≤ i → files i = []
  known : ∀ i, todo i → i < m.sorted_files_.length ∧ m.drained_.getD i true = false

theorem extend_nothing (files : Nat → List (Bytes × Int32)) (i : Nat) : extend files i [] = files := by
  rw [extend,List.append_nil,Function.update_eq_self]

section Heads
variable {m : FileMerger} {mem : Memory}

theorem heads_absent (m : FileMerger) (mem : Memory) (i : Nat) (absent : i ∉ m.res_tuples_heap_.map ResultTuple.file_index) :
    heads m mem i = [] := by
  rw [heads,List.map_eq_nil_iff,List.filter_eq_nil_iff]
  intro e member same
  obtain ⟨t,inside,rfl⟩ := List.mem_map.mp member
  exact absent (List.mem_map.mpr ⟨t,inside,of_decide_eq_true same⟩)

theorem heads_cons (m : FileMerger) (mem : Memory) (top : ResultTuple) (heap : List ResultTuple) :
    heads {m with res_tuples_heap_ := top :: heap} mem top.file_index =
      top.view mem :: heads {m with res_tuples_heap_ := heap} mem top.file_index := by
  simp only [heads,List.map_cons]
  rw [List.filter_cons_of_pos (by simp [ResultTuple.entry])]
  rfl

theorem mem_heads {j : Nat} {r : Bytes × Int32} (member : r ∈ heads m mem j) :
    ∃ t ∈ m.res_tuples_heap_, t.view mem = r ∧ t.file_index = j := by
  obtain ⟨e,inside,rfl⟩ := List.mem_map.mp member
  obtain ⟨among,same⟩ := List.mem_filter.mp inside
  obtain ⟨t,memberT,rfl⟩ := List.mem_map.mp among
  exact ⟨t,memberT,rfl,of_decide_eq_true same⟩

theorem heads_short (distinct : (m.res_tuples_heap_.map ResultTuple.file_index).Nodup) (j : Nat) :
    (heads m mem j).length ≤ 1 := by
  have once := List.nodup_iff_count_le_one.mp distinct j
  rw [List.count_eq_countP,List.countP_map,List.countP_eq_length_filter] at once
  rw [heads,List.length_map,List.filter_map,List.length_map]
  have predicates : ((fun e : Entry => decide (e.2.2 = j)) ∘ ResultTuple.entry mem) =
      (fun i => i == j) ∘ ResultTuple.file_index := by
    funext t
    exact (beq_eq_decide t.file_index j).symm
  rwa [predicates]

theorem perm_short {α : Type} {first second : List α} (same : first.Perm second) (short : first.length ≤ 1) :
    first = second := by
  cases first with
  | nil => exact (List.perm_nil.mp same.symm).symm
  | cons a rest =>
    obtain rfl : rest = [] := List.eq_nil_of_length_eq_zero (by simpa using short)
    exact (List.perm_singleton.mp same.symm).symm

/-- Two heaps with the same entries, except those of one file, have the same rows of
the other files. -/
theorem heads_perm {later : FileMerger} {after : Memory} (distinct : (later.res_tuples_heap_.map ResultTuple.file_index).Nodup)
    (j : Nat) (same : ((later.res_tuples_heap_.map (ResultTuple.entry after)).filter (·.2.2 = j)).Perm
      ((m.res_tuples_heap_.map (ResultTuple.entry mem)).filter (·.2.2 = j))) :
    heads later after j = heads m mem j :=
  perm_short (same.map Entry.row) (heads_short distinct j)

end Heads

section Refill
variable {env : Platform} {m : FileMerger} {pool : Arena} {others : List StringVal} {streams : Nat → IStream}
  {files : Nat → List (Bytes × Int32)} {todo : Nat → Prop}

theorem Reads.not_waiting (reads : Reads env m pool others streams files todo) (i : Nat) (asked : todo i) :
    i ∉ m.res_tuples_heap_.map ResultTuple.file_index := by
  intro member
  obtain ⟨t,inside,rfl⟩ := List.mem_map.mp member
  exact (reads.filed t inside).2.1 asked

private theorem Reads.drain (reads : Reads env m pool others streams files todo) (i : Nat) (asked : todo i)
    (prior : Int32) (none : readRow prior (m.sorted_files_.getD i .unopened) = none) (in_ : IStream) :
    Reads env {m with sorted_files_ := m.sorted_files_.set i in_, drained_ := m.drained_.set i true}
      pool others streams files (fun j => todo j ∧ j ≠ i) := by
  obtain ⟨bound,going⟩ := reads.known i asked
  have boundFlags : i < m.drained_.length := reads.flags ▸ bound
  have other : ∀ j, j ≠ i → (m.drained_.set i true).getD j true = m.drained_.getD j true :=
    fun j different => getD_set_ne m.drained_ i j different true true
  have own : (m.drained_.set i true).getD i true = true := getD_set_self _ _ boundFlags _ _
  refine ⟨reads.owns,reads.heap,by simpa using reads.flags,reads.indexes,?_,?_,?_,?_,?_,?_⟩
  · intro t member
    obtain ⟨within,notTodo,flag⟩ := reads.filed t member
    have different : t.file_index ≠ i := fun same => notTodo (same ▸ asked)
    exact ⟨by simpa using within,fun both => notTodo both.1,by rw [other _ different,flag]⟩
  · intro j within flag
    have different : j ≠ i := by
      rintro rfl
      rw [own] at flag
      cases flag
    rw [other j different] at flag
    rw [getD_set_ne _ _ _ different]
    exact reads.going j (by simpa using within) flag
  · intro j within flag
    by_cases same : j = i
    · subst same
      refine ⟨_,reads.going j bound going,?_⟩
      rcases readRow_prior prior 0 (m.sorted_files_.getD j .unopened) with ⟨_,nothing⟩ | ⟨_,_,_,_,found,_⟩
      · exact nothing
      · rw [found] at none
        cases none
    · rw [other j same] at flag
      exact reads.ended j (by simpa using within) flag
  · intro j within flag notTodo
    by_cases same : j = i
    · rw [same,own] at flag
      cases flag
    · rw [other j same] at flag
      exact reads.waiting j (by simpa using within) flag fun asking => notTodo ⟨asking,same⟩
  · exact fun j beyond => reads.outside j (by simpa using beyond)
  · rintro j ⟨asking,different⟩
    obtain ⟨within,flag⟩ := reads.known j asking
    exact ⟨by simpa using within,by rw [other j different,flag]⟩

private theorem Reads.deliver (reads : Reads env m pool others streams files todo) (i : Nat) (asked : todo i)
    (prior : Int32) (r : Bytes × Int32) (next : IStream) (later : Arena) (heap : List ResultTuple)
    (found : readRow prior (m.sorted_files_.getD i .unopened) = some (r,next))
    (pushed : Pushed env m pool later others i r heap) :
    Reads env {m with sorted_files_ := m.sorted_files_.set i next, res_tuples_heap_ := heap}
      later others streams (extend files i [r]) (fun j => todo j ∧ j ≠ i) := by
  obtain ⟨bound,going⟩ := reads.known i asked
  refine ⟨pushed.owns,pushed.ordered,by simpa using reads.flags,?_,?_,?_,?_,?_,?_,?_⟩
  · exact pushed.indexes.nodup_iff.mpr (List.nodup_cons.mpr ⟨reads.not_waiting i asked,reads.indexes⟩)
  · intro t member
    rcases pushed.cases t member with ⟨index,_⟩ | ⟨old,inside,index,_⟩
    · rw [index]
      exact ⟨by simpa using bound,fun both => both.2 rfl,going⟩
    · obtain ⟨within,notTodo,flag⟩ := reads.filed old inside
      rw [index]
      exact ⟨by simpa using within,fun both => notTodo both.1,flag⟩
  · intro j within flag
    by_cases same : j = i
    · subst same
      rw [extend_self,getD_set_self _ _ bound]
      exact .row _ _ _ r prior (reads.going j bound going) found
    · rw [extend_of_ne _ _ same,getD_set_ne _ _ _ same]
      exact reads.going j (by simpa using within) flag
  · intro j within flag
    have different : j ≠ i := by
      rintro rfl
      rw [going] at flag
      cases flag
    rw [extend_of_ne _ _ different]
    exact reads.ended j (by simpa using within) flag
  · intro j within flag notTodo
    rw [pushed.indexes.mem_iff]
    by_cases same : j = i
    · exact same ▸ List.mem_cons_self
    · exact List.mem_cons_of_mem _
        (reads.waiting j (by simpa using within) flag fun asking => notTodo ⟨asking,same⟩)
  · intro j beyond
    rw [List.length_set] at beyond
    rw [extend_of_ne _ _ (by omega)]
    exact reads.outside j beyond
  · rintro j ⟨asking,_⟩
    obtain ⟨within,flag⟩ := reads.known j asking
    exact ⟨by simpa using within,flag⟩

theorem Pushed.heads {later : Arena} {i : Nat} {r : Bytes × Int32} {heap : List ResultTuple}
    (pushed : Pushed env m pool later others i r heap) (fresh : i ∉ m.res_tuples_heap_.map ResultTuple.file_index)
    (distinct : (m.res_tuples_heap_.map ResultTuple.file_index).Nodup) (sorted_files : List IStream) :
    FileMerger.heads {m with sorted_files_ := sorted_files, res_tuples_heap_ := heap} later.memory =
      Function.update (FileMerger.heads m pool.memory) i [r] := by
  have distinctLater := pushed.indexes.nodup_iff.mpr (List.nodup_cons.mpr ⟨fresh,distinct⟩)
  funext j
  have entries := pushed.entries.filter (·.2.2 = j)
  by_cases same : j = i
  · subst same
    rw [Function.update_self]
    have none := heads_absent m pool.memory j fresh
    rw [FileMerger.heads,List.map_eq_nil_iff] at none
    rw [List.filter_cons_of_pos (by simp),none] at entries
    exact perm_short (entries.map Entry.row) (heads_short distinctLater j)
  · rw [Function.update_of_ne same]
    rw [List.filter_cons_of_neg (by simpa using Ne.symm same)] at entries
    exact heads_perm distinctLater j entries

/-- Asking a file for its next row, whatever it holds. -/
theorem Reads.refill (reads : Reads env m pool others streams files todo) (i : Nat) (asked : todo i) :
    ∃ more, Reads env (m.refill env pool i).1 (m.refill env pool i).2 others streams (extend files i more)
        (fun j => todo j ∧ j ≠ i) ∧
      heads (m.refill env pool i).1 (m.refill env pool i).2.memory =
        Function.update (heads m pool.memory) i more ∧
      ∀ v ∈ m.res_tuples_heap_.map ResultTuple.str ++ others,
        (m.refill env pool i).2.memory v.ptr = pool.memory v.ptr := by
  have fresh := reads.not_waiting i asked
  unfold FileMerger.refill
  cases found : readRow (env.uninit pool.requests).cnt (m.sorted_files_.getD i .unopened) with
  | none =>
    rw [NextResultTupleInFile_none env _ pool _ found]
    refine ⟨[],?_,?_,fun _ _ => rfl⟩
    · rw [extend_nothing]
      exact reads.drain i asked _ found _
    · rw [← heads_absent m pool.memory i fresh,Function.update_eq_self]
      rfl
  | some pair =>
    obtain ⟨r,next⟩ := pair
    rw [NextResultTupleInFile_some env _ next pool _ r found]
    have fits := readRow_fits found
    have pushed := pushed_deposit reads.owns reads.heap i r fits {env.uninit pool.requests with
      str := (pool.deposit env r.1).1, cnt := r.2, file_index := i} rfl rfl rfl
    exact ⟨[r],reads.deliver i asked _ r next _ _ found pushed,pushed.heads fresh reads.indexes _,
      (reads.owns.deposit env r.1 fits).2.2⟩

end Refill

/-- No file is waiting for its next row. -/
abbrev Ready (env : Platform) (m : FileMerger) (pool : Arena) (others : List StringVal)
    (streams : Nat → IStream) (files : Nat → List (Bytes × Int32)) : Prop :=
  Reads env m pool others streams files fun _ => False

section Steps
variable {env : Platform} {m : FileMerger} {pool : Arena} {others : List StringVal} {streams : Nat → IStream}
  {files : Nat → List (Bytes × Int32)}

theorem Reads.stored {todo : Nat → Prop} (reads : Reads env m pool others streams files todo) (t : ResultTuple)
    (member : t ∈ m.res_tuples_heap_) : Stored pool.memory t.str :=
  reads.owns.stored t.str (List.mem_append_left _ (List.mem_map_of_mem member))

theorem Reads.transfer (ready : Ready env m pool others streams files) (arena : Arena) (remaining : List StringVal)
    (owns : arena.Owns (m.res_tuples_heap_.map ResultTuple.str ++ remaining))
    (frame : ∀ t ∈ m.res_tuples_heap_, arena.memory t.str.ptr = pool.memory t.str.ptr) :
    Ready env m arena remaining streams files ∧ heads m arena.memory = heads m pool.memory := by
  refine ⟨⟨owns,?_,ready.flags,ready.indexes,ready.filed,ready.going,ready.ended,ready.waiting,ready.outside,
    ready.known⟩,?_⟩
  · refine env.queue.isHeap_congr _ _ _ ?_ ready.heap
    exact fun a memberA b memberB => (StringLess_congr (frame a memberA) (frame b memberB)).symm
  · funext j
    have entries : m.res_tuples_heap_.map (ResultTuple.entry arena.memory) =
        m.res_tuples_heap_.map (ResultTuple.entry pool.memory) := by
      apply List.map_congr_left
      intro t member
      rw [ResultTuple.entry,ResultTuple.entry,StringVal.toString_congr (frame t member)]
    rw [heads,heads,entries]

private theorem Reads.popped (ready : Ready env m pool others streams files) (top : ResultTuple)
    (heap : List ResultTuple) (shape : m.res_tuples_heap_ = top :: heap) :
    Reads env {m with res_tuples_heap_ := env.queue.pop (StringLess pool.memory) (top :: heap)} pool
      (top.str :: others) streams files (fun j => j = top.file_index) := by
  have perm := env.queue.pop_perm (StringLess pool.memory) top heap
  have order := row_strictWeak pool.memory (top :: heap) fun t member => ready.stored t (shape ▸ member)
  have old : ∀ t ∈ env.queue.pop (StringLess pool.memory) (top :: heap), t ∈ m.res_tuples_heap_ := by
    intro t member
    rw [shape]
    exact List.mem_cons_of_mem _ (perm.mem_iff.mp member)
  have distinct := ready.indexes
  rw [shape,List.map_cons,List.nodup_cons] at distinct
  have heaped := ready.heap
  rw [shape] at heaped
  have owns := ready.owns
  rw [shape,List.map_cons,List.cons_append] at owns
  refine ⟨owns.perm ?_,env.queue.pop_isHeap _ top heap order heaped,ready.flags,
    (perm.map _).nodup_iff.mpr distinct.2,?_,ready.going,ready.ended,?_,ready.outside,?_⟩
  · exact List.perm_middle.symm.trans ((perm.symm.map _).append_right _)
  · intro t member
    obtain ⟨within,_,flag⟩ := ready.filed t (old t member)
    refine ⟨within,fun same => ?_,flag⟩
    exact distinct.1 (same ▸ List.mem_map_of_mem (perm.mem_iff.mp member))
  · intro j within flag different
    have waiting := ready.waiting j within flag id
    rw [shape,List.map_cons] at waiting
    rcases List.mem_cons.mp waiting with same | inside
    · exact absurd same different
    · exact (perm.map _).mem_iff.mpr inside
  · intro j same
    obtain ⟨within,_,flag⟩ := ready.filed top (by simp [shape])
    exact same ▸ ⟨within,flag⟩

private theorem Reads.popped_heads (ready : Ready env m pool others streams files) (top : ResultTuple)
    (heap : List ResultTuple) (shape : m.res_tuples_heap_ = top :: heap) :
    heads m pool.memory top.file_index = [top.view pool.memory] ∧
      heads {m with res_tuples_heap_ := env.queue.pop (StringLess pool.memory) (top :: heap)} pool.memory =
        Function.update (heads m pool.memory) top.file_index [] := by
  have popped := ready.popped top heap shape
  have whole : m = {m with res_tuples_heap_ := top :: heap} := by rw [← shape]
  have distinct := ready.indexes
  rw [shape,List.map_cons,List.nodup_cons] at distinct
  constructor
  · rw [whole,heads_cons,heads_absent _ _ _ distinct.1]
  · funext j
    by_cases same : j = top.file_index
    · rw [same,Function.update_self]
      exact heads_absent _ _ _ (popped.not_waiting _ rfl)
    · rw [Function.update_of_ne same]
      apply heads_perm popped.indexes
      have entries := ((env.queue.pop_perm (StringLess pool.memory) top heap).map
        (ResultTuple.entry pool.memory)).filter (·.2.2 = j)
      rw [shape,List.map_cons,List.filter_cons_of_neg fun mine => same (of_decide_eq_true mine).symm]
      exact entries

private theorem Reads.least (ready : Ready env m pool others streams files) (top : ResultTuple)
    (heap : List ResultTuple) (shape : m.res_tuples_heap_ = top :: heap) (j : Nat) (other : Bytes × Int32)
    (shown : (heads m pool.memory j).head? = some other) : ¬ rowBefore other (top.view pool.memory) := by
  obtain ⟨t,member,same,_⟩ := mem_heads (List.mem_of_mem_head? (Option.mem_def.mpr shown))
  have stored : ∀ t ∈ top :: heap, Stored pool.memory t.str := fun t member => ready.stored t (shape ▸ member)
  have heaped := ready.heap
  rw [shape] at heaped member
  rw [← same]
  intro below
  rcases List.mem_cons.mp member with top' | later
  · exact lt_irrefl _ (top' ▸ below)
  · have notLess := env.queue.top_max _ top heap (row_strictWeak _ _ stored) heaped t later
    rw [(StringLess_iff _ _ _ (stored top (by simp)) (stored t (by simp [later]))).mpr below] at notLess
    cases notLess

/-- A call on a non-empty heap takes the row of one file that no row of another
file is before, and reads on in that file. -/
theorem Reads.next (ready : Ready env m pool others streams files) {out : List (Nat × (Bytes × Int32))}
    (merged : Merged rowBefore files out (heads m pool.memory)) (top : ResultTuple) (heap : List ResultTuple)
    (shape : m.res_tuples_heap_ = top :: heap) (res : ResultTuple) :
    ∃ after arena more, m.NextResultTuple env pool res = (true,after,arena,top) ∧
      Ready env after arena (top.str :: others) streams (extend files top.file_index more) ∧
      Merged rowBefore (extend files top.file_index more) (out ++ [(top.file_index,top.view pool.memory)])
        (heads after arena.memory) ∧
      ∀ v ∈ top.str :: others, arena.memory v.ptr = pool.memory v.ptr := by
  obtain ⟨_,_,flag⟩ := ready.filed top (by simp [shape])
  obtain ⟨more,kept,refilled,frame⟩ := (ready.popped top heap shape).refill top.file_index rfl
  obtain ⟨own,rest⟩ := ready.popped_heads top heap shape
  have none : (fun j => j = top.file_index ∧ j ≠ top.file_index) = fun _ => False := by
    funext j
    simp
  rw [none] at kept
  rw [rest,Function.update_idem] at refilled
  refine ⟨_,_,more,?_,kept,?_,fun v member => frame v (List.mem_append_right _ member)⟩
  · unfold NextResultTuple
    rw [shape]
    simp only [flag,Bool.false_eq_true,if_false]
  · rw [refilled]
    exact merged.round _ _ own (ready.least top heap shape) more

/-- When the heap is empty all rows of all files have been delivered. -/
theorem Reads.exhausted (ready : Ready env m pool others streams files) (empty : m.res_tuples_heap_ = []) :
    heads m pool.memory = (fun _ => []) ∧ ∀ i < m.sorted_files_.length, Readings (streams i) (files i) := by
  constructor
  · funext j
    exact heads_absent _ _ _ (by simp [empty])
  · intro i bound
    cases flag : m.drained_.getD i true with
    | true => exact ready.ended i bound flag
    | false =>
      have waiting := ready.waiting i bound flag id
      rw [empty] at waiting
      cases waiting

end Steps

section Opening
variable {env : Env} {disk : Disk} {m : FileMerger} {pool : Arena} {others : List StringVal} {k : Nat}
  {streams : List IStream}

private theorem fill_reads (owns : pool.Owns others) (empty : m.res_tuples_heap_ = [])
    (size : m.sorted_files_.length = k) (flags : m.drained_ = List.replicate k false) (n : Nat) (bound : n ≤ k) :
    ∃ files, Reads env.toPlatform ((List.range n).foldl (fill env.toPlatform) (m,pool)).1
        ((List.range n).foldl (fill env.toPlatform) (m,pool)).2 others (m.sorted_files_.getD · .unopened) files
        (fun j => n ≤ j ∧ j < k) ∧
      heads ((List.range n).foldl (fill env.toPlatform) (m,pool)).1
        ((List.range n).foldl (fill env.toPlatform) (m,pool)).2.memory = files ∧
      ((List.range n).foldl (fill env.toPlatform) (m,pool)).1.sorted_files_.length = k := by
  induction n with
  | zero =>
    have flag : ∀ i < k, m.drained_.getD i true = false := by
      intro i bound
      simp [flags,List.getD_eq_getElem?_getD,bound]
    subst size
    refine ⟨fun _ => [],?_,?_,rfl⟩
    · refine ⟨by simpa [empty] using owns,empty ▸ env.queue.isHeap_nil _,by simp [flags],by simp [empty],
        by simp [empty],fun _ _ _ => .nothing,?_,?_,fun _ _ => rfl,fun i todo => ⟨todo.2,flag i todo.2⟩⟩
      · intro i bound drained
        rw [List.range_zero,List.foldl_nil,flag i bound] at drained
        cases drained
      · exact fun i bound _ notTodo => absurd ⟨Nat.zero_le i,bound⟩ notTodo
    · funext j
      exact heads_absent _ _ _ (by simp [empty])
  | succ n ih =>
    obtain ⟨files,reads,first,long⟩ := ih (by omega)
    rw [List.range_succ,List.foldl_append,List.foldl_cons,List.foldl_nil]
    generalize (List.range n).foldl (fill env.toPlatform) (m,pool) = s at reads first long ⊢
    obtain ⟨_,flag⟩ := reads.known n ⟨le_refl n,bound⟩
    have next : fill env.toPlatform s n = s.1.refill env.toPlatform s.2 n := by
      simp only [fill,flag,Bool.false_eq_true,if_false]
    obtain ⟨more,kept,refilled,_⟩ := reads.refill n ⟨le_refl n,bound⟩
    have advance : (fun j => (n ≤ j ∧ j < k) ∧ j ≠ n) = fun j => n + 1 ≤ j ∧ j < k := by
      funext j
      simp only [eq_iff_iff]
      omega
    have none : files n = [] := by
      rw [← first]
      exact heads_absent _ _ _ (reads.not_waiting n ⟨le_refl n,bound⟩)
    rw [advance] at kept
    rw [next]
    refine ⟨_,kept,?_,(refill_length _ _ _).trans long⟩
    rw [refilled,first,extend,none,List.nil_append]

/-- After `Open` the heap holds the first row of every file that has one. -/
theorem Open_reads (prepared : Prepared env disk m k streams) (owns : pool.Owns others) :
    ∃ files, Ready env.toPlatform (m.Open env disk pool k).2.1 (m.Open env disk pool k).2.2 others
        (streams.getD · .unopened) files ∧
      heads (m.Open env disk pool k).2.1 (m.Open env disk pool k).2.2.memory = files ∧
      (m.Open env disk pool k).2.1.sorted_files_.length = k := by
  rw [prepared.open_eq]
  let opened : FileMerger := {m with sorted_files_ := streams, drained_ := List.replicate k false}
  obtain ⟨files,reads,first,long⟩ := @fill_reads env opened pool others k owns prepared.empty prepared.size rfl k le_rfl
  have done : (fun j => k ≤ j ∧ j < k) = fun _ => False := by
    funext j
    exact propext ⟨fun both => absurd both.2 (Nat.not_lt.mpr both.1),False.elim⟩
  rw [done] at reads
  exact ⟨files,reads,first,long⟩

end Opening
end FileMerger
end TopNFreq
