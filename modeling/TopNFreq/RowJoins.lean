import TopNFreq.EndToEnd

/-! The second stage on rows alone: rows of one URL that follow each other are
joined, and the best of what comes out are kept. -/
namespace TopNFreq
open Library.Text Library.Coalesce

/-- Add a row to the run that it continues, or start a run with it. A run whose
count is 0 counts as none. -/
def Runs.join (runs : Runs) (row : Bytes × Int32) : Runs :=
  if runs.cnt = 0 then {runs with url := row.1, cnt := row.2}
  else if runs.url = row.1 then {runs with cnt := runs.cnt + row.2}
  else ⟨runs.rows ++ [(runs.url,runs.cnt)],row.1,row.2⟩

/-- Counting URLs is joining rows of count 1. -/
theorem Runs.count_join (runs : Runs) (url : Bytes) : runs.count url = runs.join (url,1) := rfl

def joined (rows : List (Bytes × Int32)) : Runs := rows.foldl Runs.join Runs.start

theorem joined_snoc (rows : List (Bytes × Int32)) (row : Bytes × Int32) :
    joined (rows ++ [row]) = (joined rows).join row := by
  rw [joined,List.foldl_append]
  rfl

def joinRows (rows : List (Bytes × Int32)) : List (Bytes × Int32) := (joined rows).finish

/-- How often the rows so far join to a run of count 0, which then counts as none. -/
def vanishing (rows : List (Bytes × Int32)) : Nat := rows.inits.tail.countP fun front => (joined front).cnt = 0

theorem vanishing_snoc (rows : List (Bytes × Int32)) (row : Bytes × Int32) :
    vanishing (rows ++ [row]) = vanishing rows + if (joined (rows ++ [row])).cnt = 0 then 1 else 0 := by
  have front : (rows ++ [row]).inits.tail = rows.inits.tail ++ [rows ++ [row]] := by
    rw [List.inits_append]
    cases rows <;> simp
  rw [vanishing,front,List.countP_append,List.countP_singleton]
  simp only [decide_eq_true_eq]
  rfl

def rowRank (r : Bytes × Int32) : Rank := rankOf (r.1,r.2.toInt)

theorem rowRank_injective : Function.Injective rowRank := rankOf_injective.comp exactCount_injective

/-- The `n` best rows, best first. -/
def bestRows (n : Nat) (rows : List (Bytes × Int32)) : List (Bytes × Int32) :=
  (rows.insertionSort fun a b => rowRank a ≤ rowRank b).take n

theorem sorted_rowRanks (rows : List (Bytes × Int32)) :
    ((rows.insertionSort fun a b => rowRank a ≤ rowRank b).map rowRank).Pairwise (· ≤ ·) := by
  have total : Std.Total fun a b : Bytes × Int32 => rowRank a ≤ rowRank b := ⟨fun a b => le_total _ _⟩
  have trans : IsTrans _ fun a b : Bytes × Int32 => rowRank a ≤ rowRank b := ⟨fun a b c => le_trans⟩
  rw [List.pairwise_map]
  exact List.pairwise_insertionSort _ rows

theorem bestRows_perm (n : Nat) {first second : List (Bytes × Int32)} (same : first.Perm second) :
    bestRows n first = bestRows n second := by
  refine congrArg (List.take n) (List.map_injective_iff.mpr rowRank_injective ?_)
  refine List.Perm.eq_of_pairwise (fun _ _ _ _ => le_antisymm) (sorted_rowRanks _) (sorted_rowRanks _)
    (List.Perm.map _ ?_)
  exact (List.perm_insertionSort _ _).trans (same.trans (List.perm_insertionSort _ _).symm)

/-! Over rows that ascend by URL the joined counts are the sums modulo 2^32, and a URL
whose sum is 0 has no row. -/

def exactCounts (rows : List (Bytes × Int32)) : List (Bytes × Int) := rows.map fun r => (r.1,r.2.toInt)

theorem exactCounts_append (first second : List (Bytes × Int32)) :
    exactCounts (first ++ second) = exactCounts first ++ exactCounts second := List.map_append

/-- The sum of the counts of a URL, modulo 2^32. -/
def total (url : Bytes) (rows : List (Bytes × Int32)) : Int32 := Int32.ofInt (weight url (exactCounts rows))

theorem total_append (url : Bytes) (first second : List (Bytes × Int32)) :
    total url (first ++ second) = total url first + total url second := by
  rw [total,exactCounts_append,weight_append,Int32.ofInt_add]
  rfl

theorem total_single (url : Bytes) (r : Bytes × Int32) : total url [r] = if r.1 = url then r.2 else 0 := by
  rw [total,exactCounts,List.map_singleton,weight_cons,weight_nil,add_zero]
  split
  · exact Int32.ofInt_toInt r.2
  · rfl

theorem total_perm (url : Bytes) {first second : List (Bytes × Int32)} (same : first.Perm second) :
    total url first = total url second := by
  rw [total,exactCounts,weight_perm url _ _ (same.map _)]
  rfl

theorem total_absent (url : Bytes) (rows : List (Bytes × Int32)) (absent : url ∉ rows.map Prod.fst) :
    total url rows = 0 := by
  rw [total,weight_absent url]
  · rfl
  · intro p member same
    obtain ⟨r,inside,rfl⟩ := List.mem_map.mp member
    exact absent (same ▸ List.mem_map_of_mem inside)

/-- Where the joining of ascending rows stands. -/
structure Summed (done : List (Bytes × Int32)) (runs : Runs) : Prop where
  cnt : runs.cnt = total runs.url done
  current : done ≠ [] → runs.url ∈ done.map Prod.fst
  greatest : ∀ r ∈ done, r.1 ≤ runs.url
  rows : ∀ r, r ∈ runs.rows ↔ r.1 ≠ runs.url ∧ r.2 = total r.1 done ∧ r.2 ≠ 0
  ascending : (runs.rows.map Prod.fst).Pairwise (· < ·)

theorem summed_start : Summed [] Runs.start := by
  refine ⟨rfl,fun nonempty => absurd rfl nonempty,by simp,fun r => ?_,List.Pairwise.nil⟩
  refine iff_of_false (by simp [Runs.start]) ?_
  rintro ⟨_,none,nonzero⟩
  exact nonzero none

section Joining
variable {done : List (Bytes × Int32)} {runs : Runs} {row : Bytes × Int32}

private theorem Summed.below (summed : Summed done runs) (r : Bytes × Int32) (member : r ∈ runs.rows) :
    r.1 < runs.url := by
  obtain ⟨different,sum,nonzero⟩ := (summed.rows r).mp member
  have present : r.1 ∈ done.map Prod.fst := by
    by_contra absent
    exact nonzero (sum.trans (total_absent _ _ absent))
  obtain ⟨q,among,same⟩ := List.mem_map.mp present
  exact lt_of_le_of_ne (same ▸ summed.greatest q among) different

private theorem Summed.closed (summed : Summed done runs) :
    ((runs.rows ++ [(runs.url,runs.cnt)]).map Prod.fst).Pairwise (· < ·) := by
  rw [List.map_append,List.map_singleton]
  refine List.pairwise_append.mpr ⟨summed.ascending,List.pairwise_singleton _ _,?_⟩
  intro url member last isLast
  rw [List.mem_singleton.mp isLast]
  obtain ⟨r,inside,rfl⟩ := List.mem_map.mp member
  exact summed.below r inside

private theorem Summed.fresh (summed : Summed done runs) (above : ∀ r ∈ done, r.1 ≤ row.1)
    (changes : runs.url ≠ row.1) : row.1 ∉ done.map Prod.fst := by
  intro member
  obtain ⟨r,inside,same⟩ := List.mem_map.mp member
  obtain ⟨q,last,shared⟩ := List.mem_map.mp (summed.current (List.ne_nil_of_mem inside))
  apply changes
  apply le_antisymm
  · exact shared ▸ above q last
  · exact same ▸ summed.greatest r inside

private theorem total_next : total row.1 (done ++ [row]) = total row.1 done + row.2 := by
  rw [total_append,total_single,if_pos rfl]

private theorem total_kept (url : Bytes) (different : url ≠ row.1) : total url (done ++ [row]) = total url done := by
  rw [total_append,total_single,if_neg (Ne.symm different),Int32.add_zero]

private theorem greatest_row (above : ∀ r ∈ done, r.1 ≤ row.1) : ∀ r ∈ done ++ [row], r.1 ≤ row.1 := by
  intro r member
  rcases List.mem_append.mp member with old | new
  · exact above r old
  · rw [List.mem_singleton.mp new]

private theorem Summed.first (summed : Summed done runs) (above : ∀ r ∈ done, r.1 ≤ row.1) (zero : runs.cnt = 0) :
    Summed (done ++ [row]) {runs with url := row.1, cnt := row.2} := by
  have before : total row.1 done = 0 := by
    by_cases same : runs.url = row.1
    · rw [← same,← summed.cnt,zero]
    · exact total_absent _ _ (summed.fresh above same)
  refine ⟨?_,by simp,greatest_row above,fun r => ?_,summed.ascending⟩
  · dsimp only
    rw [total_next,before,Int32.zero_add]
  · apply (summed.rows r).trans
    by_cases new : r.1 = row.1
    · refine iff_of_false ?_ fun other => other.1 new
      rintro ⟨_,sum,nonzero⟩
      exact nonzero (by rw [sum,new,before])
    · rw [total_kept r.1 new]
      refine ⟨fun ended => ⟨new,ended.2⟩,fun other => ⟨fun same => other.2.2 ?_,other.2⟩⟩
      rw [other.2.1,same,← summed.cnt,zero]

private theorem Summed.again (summed : Summed done runs) (above : ∀ r ∈ done, r.1 ≤ row.1)
    (same : runs.url = row.1) : Summed (done ++ [row]) {runs with cnt := runs.cnt + row.2} := by
  have sum : runs.cnt + row.2 = total runs.url (done ++ [row]) := by rw [summed.cnt,same,total_next]
  refine ⟨sum,fun _ => by simp [same],fun r member => same ▸ greatest_row above r member,fun r => ?_,
    summed.ascending⟩
  apply (summed.rows r).trans
  apply and_congr_right
  intro different
  rw [total_kept r.1 (same ▸ different)]

private theorem Summed.change (summed : Summed done runs) (above : ∀ r ∈ done, r.1 ≤ row.1)
    (counting : runs.cnt ≠ 0) (changes : runs.url ≠ row.1) :
    Summed (done ++ [row]) ⟨runs.rows ++ [(runs.url,runs.cnt)],row.1,row.2⟩ := by
  have before := total_absent _ _ (summed.fresh above changes)
  refine ⟨?_,by simp,greatest_row above,fun r => ?_,summed.closed⟩
  · dsimp only
    rw [total_next,before,Int32.zero_add]
  · rw [List.mem_append,summed.rows,List.mem_singleton]
    by_cases new : r.1 = row.1
    · refine iff_of_false ?_ fun other => other.1 new
      rintro (⟨_,sum,nonzero⟩ | rfl)
      · exact nonzero (by rw [sum,new,before])
      · exact changes new
    · rw [total_kept r.1 new]
      by_cases last : r.1 = runs.url
      · constructor
        · rintro (⟨different,_⟩ | rfl)
          · exact absurd last different
          · exact ⟨new,summed.cnt,counting⟩
        · rintro ⟨_,sum,_⟩
          exact .inr (Prod.ext last (by rw [sum,last,summed.cnt]))
      · refine ⟨?_,fun other => .inl ⟨last,other.2⟩⟩
        rintro (ended | rfl)
        · exact ⟨new,ended.2⟩
        · exact absurd rfl last

theorem Summed.join (summed : Summed done runs) (row : Bytes × Int32) (above : ∀ r ∈ done, r.1 ≤ row.1) :
    Summed (done ++ [row]) (runs.join row) := by
  unfold Runs.join
  split
  · rename_i zero
    exact summed.first above zero
  · rename_i counting
    split
    · rename_i same
      exact summed.again above same
    · rename_i changes
      exact summed.change above counting changes

end Joining

theorem summed_joined (rows : List (Bytes × Int32)) (ascending : rows.Pairwise urlLe) : Summed rows (joined rows) := by
  induction rows using List.reverseRecOn with
  | nil => exact summed_start
  | append_singleton done row ih =>
    obtain ⟨before,_,above⟩ := List.pairwise_append.mp ascending
    rw [joined_snoc]
    exact (ih before).join row fun r member => above r member row List.mem_cons_self

theorem mem_joinRows (rows : List (Bytes × Int32)) (ascending : rows.Pairwise urlLe) (r : Bytes × Int32) :
    r ∈ joinRows rows ↔ r.2 = total r.1 rows ∧ r.2 ≠ 0 := by
  have summed := summed_joined rows ascending
  unfold joinRows Runs.finish
  generalize joined rows = runs at summed
  split
  · rename_i zero
    rw [summed.rows,and_iff_right_iff_imp]
    rintro ⟨sum,nonzero⟩ same
    exact nonzero (by rw [sum,same,← summed.cnt,zero])
  · rename_i counting
    rw [List.mem_append,summed.rows,List.mem_singleton]
    constructor
    · rintro (⟨_,ended⟩ | rfl)
      · exact ended
      · exact ⟨summed.cnt,counting⟩
    · rintro ⟨sum,nonzero⟩
      by_cases last : r.1 = runs.url
      · exact .inr (Prod.ext last (by rw [sum,last,summed.cnt]))
      · exact .inl ⟨last,sum,nonzero⟩

theorem joinRows_ascending (rows : List (Bytes × Int32)) (ascending : rows.Pairwise urlLe) :
    ((joinRows rows).map Prod.fst).Pairwise (· < ·) := by
  have summed := summed_joined rows ascending
  unfold joinRows Runs.finish
  generalize joined rows = runs at summed
  split
  · exact summed.ascending
  · exact summed.closed

theorem total_of_mem {rows : List (Bytes × Int32)} (distinct : (rows.map Prod.fst).Nodup) (r : Bytes × Int32)
    (member : r ∈ rows) : total r.1 rows = r.2 := by
  have keys : (exactCounts rows).map Prod.fst = rows.map Prod.fst := by
    rw [exactCounts,List.map_map]
    rfl
  rw [total,weight_of_mem (exactCounts rows) (keys ▸ distinct) (r.1,r.2.toInt) (List.mem_map_of_mem member)]
  exact Int32.ofInt_toInt r.2

/-- Joining keeps the sums. -/
theorem total_joinRows (url : Bytes) (rows : List (Bytes × Int32)) (ascending : rows.Pairwise urlLe) :
    total url (joinRows rows) = total url rows := by
  have distinct := (joinRows_ascending rows ascending).imp ne_of_lt
  by_cases present : url ∈ (joinRows rows).map Prod.fst
  · obtain ⟨r,member,rfl⟩ := List.mem_map.mp present
    rw [total_of_mem distinct r member]
    exact ((mem_joinRows rows ascending r).mp member).1
  · rw [total_absent url _ present]
    by_contra nonzero
    refine present (List.mem_map.mpr ⟨(url,total url rows),?_,rfl⟩)
    exact (mem_joinRows rows ascending _).mpr ⟨rfl,Ne.symm nonzero⟩

/-! ## Batches -/

theorem total_ones (url : Bytes) (urls : List Bytes) :
    total url (urls.map fun u => (u,1)) = Int32.ofNat (urls.count url) := by
  have ones : exactCounts (urls.map fun u => (u,1)) = urls.map fun u => (u,(1 : Int)) := by
    rw [exactCounts,List.map_map]
    rfl
  rw [total,ones,weight_ones]
  rfl

theorem batchRows_joins (batch : List Bytes) :
    batchRows batch = joinRows ((batch.insertionSort (· ≤ ·)).map fun url => (url,1)) := by
  have same : Runs.count = fun runs url => runs.join (url,1) := funext₂ Runs.count_join
  rw [batchRows,joinRows,joined,List.foldl_map,same]

private theorem ones_ascending (batch : List Bytes) :
    ((batch.insertionSort (· ≤ ·)).map fun url => ((url,1) : Bytes × Int32)).Pairwise urlLe := by
  rw [List.pairwise_map]
  exact List.pairwise_insertionSort (· ≤ ·) batch

theorem total_batchRows (url : Bytes) (batch : List Bytes) :
    total url (batchRows batch) = Int32.ofNat (batch.count url) := by
  rw [batchRows_joins,total_joinRows url _ (ones_ascending batch),total_ones,
    (List.perm_insertionSort (· ≤ ·) batch).count_eq]

theorem batchRows_ascending (batch : List Bytes) : (batchRows batch).Pairwise urlLe := by
  have ascending := joinRows_ascending _ (ones_ascending batch)
  rw [← batchRows_joins,List.pairwise_map] at ascending
  exact ascending.imp le_of_lt

theorem total_batches (url : Bytes) (batches : List (List Bytes)) :
    total url (batches.flatMap batchRows) = Int32.ofNat (batches.flatten.count url) := by
  induction batches with
  | nil => rfl
  | cons batch rest ih =>
    rw [List.flatMap_cons,total_append,total_batchRows,ih,List.flatten_cons,List.count_append,Int32.ofNat_add]

/-- The distinct URLs with their numbers of occurrences as the program counts them,
modulo 2^32; none with the number 0. -/
def wrapped (urls : List Bytes) : List (Bytes × Int32) :=
  (urls.dedup.map fun url => (url,Int32.ofNat (urls.count url))).filter (·.2 ≠ 0)

theorem mem_wrapped (urls : List Bytes) (r : Bytes × Int32) :
    r ∈ wrapped urls ↔ r.2 = Int32.ofNat (urls.count r.1) ∧ r.2 ≠ 0 := by
  rw [wrapped,List.mem_filter,decide_eq_true_eq,and_congr_left_iff]
  intro nonzero
  constructor
  · intro member
    obtain ⟨url,_,rfl⟩ := List.mem_map.mp member
    rfl
  · intro count
    refine List.mem_map.mpr ⟨r.1,?_,Prod.ext rfl count.symm⟩
    rw [List.mem_dedup]
    by_contra absent
    exact nonzero (by rw [count,List.count_eq_zero_of_not_mem absent]; rfl)

theorem wrapped_nodup (urls : List Bytes) : (wrapped urls).Nodup := by
  apply List.Nodup.filter
  refine (List.nodup_dedup urls).map fun first second same => ?_
  exact congrArg Prod.fst same

/-- Rows that ascend by URL and have the sums of some URLs join to what the URLs count. -/
theorem joinRows_wrapped {rows : List (Bytes × Int32)} (ascending : rows.Pairwise urlLe) (urls : List Bytes)
    (totals : ∀ url, total url rows = Int32.ofNat (urls.count url)) : (joinRows rows).Perm (wrapped urls) := by
  have distinct : (joinRows rows).Nodup :=
    List.Nodup.of_map Prod.fst ((joinRows_ascending rows ascending).imp ne_of_lt)
  refine (List.perm_ext_iff_of_nodup distinct (wrapped_nodup urls)).mpr fun r => ?_
  rw [mem_joinRows rows ascending,mem_wrapped,totals]

end TopNFreq
