import TopNFreq.RowFormat

/-! Writing rows and reading them back. The URL is written as it is, so a tab in
it is taken for the separator. -/
namespace TopNFreq
open Library.Text Library.InputStream IStream FileManager

def writeRows (env : Env) (mem : Memory) (disk : Disk) (mgr : FileManager) :
    List ResultTuple → Disk × FileManager
  | [] => (disk,mgr)
  | res :: rest =>
    let (_,disk,mgr) := mgr.WriteResultTuple env mem disk res
    writeRows env mem disk mgr rest

/-- `NextResultTupleInFile` until it returns false, `calls` times at most. -/
def readRows (env : Platform) : Nat → IStream → Arena → List (Bytes × Int32)
  | 0, _, _ => []
  | calls+1, in_, pool =>
    match FileMerger.NextResultTupleInFile env in_ pool (env.uninit pool.requests) with
    | (false,_,_,_) => []
    | (true,in_,pool,res) => res.view pool.memory :: readRows env calls in_ pool

/-- A tuple that the first stage can spill: its URL is what `ReadLine` returns
for a line, its count that of a run. -/
structure Spillable (mem : Memory) (t : ResultTuple) : Prop where
  stored : t.str.len = (mem t.str.ptr).length
  nonempty : 1 ≤ t.str.len
  short : t.str.len ≤ MAX_URL_LEN - 1
  oneLine : newline ∉ t.str.toString mem
  positive : 1 ≤ t.cnt.toInt

theorem writeRows_ok (env : Env) (sound : ∀ n, env.faults.writeRow n = false) (mem : Memory)
    (tuples : List ResultTuple) (disk : Disk) (mgr : FileManager) (name content : Bytes)
    (opened : mgr.out_ = ⟨some name,false⟩) (present : disk name = some content) :
    (writeRows env mem disk mgr tuples).1 name =
      some (content ++ (tuples.map (ResultTuple.view mem)).flatMap rowBytes) := by
  induction tuples generalizing disk mgr content with
  | nil => simpa [writeRows] using present
  | cons res rest ih =>
    rw [writeRows,WriteResultTuple_ok env mem disk mgr res name content (sound _) opened present]
    refine (ih _ _ (content ++ rowBytes (res.view mem)) ?_ (Function.update_self ..)).trans (by simp)
    exact opened

theorem readRows_text (env : Platform) (rows : List (Bytes × Int32)) (text : Bytes)
    (ok : ∀ r ∈ rows, RowReadable r) (shape : RowText rows text) (in_ : IStream) (holds : Holds in_ text)
    (pool : Arena) (calls : Nat) (enough : rows.length < calls) :
    readRows env calls in_ pool = rows := by
  induction rows generalizing text in_ pool calls with
  | nil =>
    obtain ⟨calls,rfl⟩ := Nat.exists_eq_add_of_le' (Nat.one_le_of_lt enough)
    obtain rfl := shape.nil_text
    obtain ⟨left,same,_⟩ := FileMerger.NextResultTupleInFile_end env in_ pool (env.uninit pool.requests) holds
    rw [readRows,same]
  | cons r rows ih =>
    simp only [List.length_cons] at enough
    obtain ⟨calls,rfl⟩ := Nat.exists_eq_add_of_le' (by omega : 1 ≤ calls)
    obtain ⟨left,more,same,holdsMore,rest⟩ := FileMerger.NextResultTupleInFile_row env in_ pool
      (env.uninit pool.requests) r rows text (ok r (by simp)) shape holds
    rw [readRows,same]
    dsimp only
    rw [ih more (fun q member => ok q (by simp [member])) rest left holdsMore _ calls (by omega)]
    simp only [ResultTuple.view,Arena.deposit_toString]

theorem readRows_clean (env : Platform) (calls : Nat) (in_ : IStream) (pool : Arena) :
    ∀ r ∈ readRows env calls in_ pool, tab ∉ r.1 := by
  induction calls generalizing in_ pool with
  | zero => simp [readRows]
  | succ calls ih =>
    intro r member
    rcases FileMerger.NextResultTupleInFile_cases env in_ pool (env.uninit pool.requests) with
      ⟨_,same⟩ | ⟨url,found,same⟩
    · simp [readRows,same] at member
    · rw [readRows,same] at member
      rcases List.mem_cons.mp member with rfl | later
      · simp only [ResultTuple.view,Arena.deposit_toString]
        exact (ReadLine_some in_ MAX_URL_LEN tab (by decide) url found).2.2.1
      · exact ih _ _ r later

/-- The spill format round-trips exactly for the URLs without a tab. -/
theorem spill_round_trip (env : Env) (sound : ∀ n, env.faults.writeRow n = false) (mem : Memory)
    (tuples : List ResultTuple) (spillable : ∀ t ∈ tuples, Spillable mem t) (disk : Disk)
    (mgr : FileManager) (name : Bytes) (opened : mgr.out_ = ⟨some name,false⟩)
    (created : disk name = some []) (pool : Arena) (calls : Nat) (enough : tuples.length < calls) :
    readRows env.toPlatform calls
        (IStream.opened (((writeRows env mem disk mgr tuples).1 name).getD []) none) pool =
      tuples.map (ResultTuple.view mem) ↔
    ∀ t ∈ tuples, tab ∉ t.str.toString mem := by
  rw [writeRows_ok env sound mem tuples disk mgr name [] opened created,Option.getD_some,List.nil_append]
  constructor
  · intro same t member
    exact readRows_clean env.toPlatform calls _ pool (t.view mem) (same ▸ List.mem_map_of_mem member)
  · intro clean
    refine readRows_text env.toPlatform _ _ ?_ (rowText_flatMap _) _ (holds_opened _) pool calls (by simpa)
    intro r member
    obtain ⟨t,inside,rfl⟩ := List.mem_map.mp member
    have good := spillable t inside
    have length : (t.str.toString mem).length = t.str.len := by
      rw [StringVal.toString,List.length_take,← good.stored,Nat.min_self]
    have bound : t.str.len < MAX_URL_LEN := Nat.lt_of_le_sub_one (by decide) good.short
    refine ⟨?_,?_,clean t inside⟩
    · exact List.length_pos_iff.mp (length ▸ good.nonempty)
    · exact length ▸ bound

/-- The URL `a`, tab, `b` comes back as `a` with the count 0. -/
theorem spill_altered_by_tab :
    Spillable (fun _ => [97,9,98]) ⟨⟨1,3⟩,1,0⟩ ∧
    readRows Env.reference.toPlatform 2 (IStream.opened (((writeRows Env.reference (fun _ => [97,9,98])
      (Function.update (fun _ => none) [111] (some [])) ⟨[105],.unopened,⟨some [111],false⟩,1,0,[[]]⟩
      [⟨⟨1,3⟩,1,0⟩]).1 [111]).getD []) none) (Arena.new 1024) = [([97],0)] ∧
    [([97],0)] ≠ [⟨⟨1,3⟩,1,0⟩].map (ResultTuple.view fun _ => [97,9,98]) :=
  ⟨⟨rfl,by decide,by decide,by decide,by decide⟩,by decide +kernel,by decide⟩

/-- Two rows whose URL ends in a blank. -/
theorem spill_round_trip_two :
    readRows Env.reference.toPlatform 3 (IStream.opened (((writeRows Env.reference (fun _ => [98,32])
      (Function.update (fun _ => none) [111] (some [])) ⟨[105],.unopened,⟨some [111],false⟩,1,0,[[]]⟩
      [⟨⟨1,2⟩,7,0⟩,⟨⟨1,2⟩,1,0⟩]).1 [111]).getD []) none) (Arena.new 1024) =
        [⟨⟨1,2⟩,7,0⟩,⟨⟨1,2⟩,1,0⟩].map (ResultTuple.view fun _ => [98,32]) ↔
      ∀ t ∈ [(⟨⟨1,2⟩,7,0⟩ : ResultTuple),⟨⟨1,2⟩,1,0⟩], tab ∉ t.str.toString fun _ => [98,32] :=
  spill_round_trip Env.reference (fun _ => rfl) _ _
    (by
      intro t member
      rcases List.mem_cons.mp member with rfl | later
      · exact ⟨rfl,by decide,by decide,by decide,by decide⟩
      · rw [List.mem_singleton.mp later]
        exact ⟨rfl,by decide,by decide,by decide,by decide⟩)
    _ _ [111] rfl (Function.update_self ..) _ _ (by decide)

end TopNFreq
