import TopNFreq.FileManager
import Mathlib.Data.List.Sort
import Mathlib.Data.List.Induction

/-! The first stage on byte strings alone: the batches into which a memory limit
cuts the URLs, the rows of a batch, and the faults that spilling them meets. -/
namespace TopNFreq
open Library.Text

/-- The rows of the runs that have ended and the run that is being counted; its
count is 0 when there is none. -/
structure Runs where
  rows : List (Bytes × Int32)
  url : Bytes
  cnt : Int32

namespace Runs

def start : Runs := ⟨[],[],0⟩

def count (runs : Runs) (url : Bytes) : Runs :=
  if runs.cnt = 0 then {runs with url, cnt := 1}
  else if runs.url = url then {runs with cnt := runs.cnt + 1}
  else ⟨runs.rows ++ [(runs.url,runs.cnt)],url,1⟩

def finish (runs : Runs) : List (Bytes × Int32) :=
  if runs.cnt = 0 then runs.rows else runs.rows ++ [(runs.url,runs.cnt)]

theorem count_rows (runs : Runs) (url : Bytes) : runs.rows.length ≤ (runs.count url).rows.length := by
  unfold count
  split
  · exact le_rfl
  · split
    · exact le_rfl
    · simp

@[simp] theorem count_url (runs : Runs) (url : Bytes) : (runs.count url).url = url := by
  unfold count
  split
  · rfl
  · split
    · assumption
    · rfl

theorem rows_le_finish (runs : Runs) : runs.rows.length ≤ runs.finish.length := by
  unfold finish
  split
  · exact le_rfl
  · simp

end Runs

def batchRows (batch : List Bytes) : List (Bytes × Int32) :=
  ((batch.insertionSort (· ≤ ·)).foldl Runs.count Runs.start).finish

theorem batchRows_sorted (batch sorted : List Bytes) (same : sorted.Perm batch)
    (ascending : sorted.Pairwise (· ≤ ·)) : batchRows batch = (sorted.foldl Runs.count Runs.start).finish := by
  have permuted : (batch.insertionSort (· ≤ ·)).Perm sorted := (List.perm_insertionSort _ _).trans same.symm
  have order := permuted.eq_of_pairwise' (List.pairwise_insertionSort _ _) ascending
  rw [batchRows,order]

/-- Where the counting of an ascending sequence stands. A count is exact modulo 2^32,
so a URL that occurs a multiple of 2^32 times gets no row. -/
structure Counted (done : List Bytes) (runs : Runs) : Prop where
  cnt : runs.cnt = Int32.ofNat (done.count runs.url)
  current : done ≠ [] → runs.url ∈ done
  greatest : ∀ url ∈ done, url ≤ runs.url
  rows : ∀ url, url ∈ runs.rows.map Prod.fst ↔ url ≠ runs.url ∧ done.count url % 2^32 ≠ 0

theorem counted_start : Counted [] Runs.start :=
  ⟨rfl,fun nonempty => absurd rfl nonempty,by simp,by simp [Runs.start]⟩

theorem ofNat_eq_zero_iff (n : Nat) : Int32.ofNat n = 0 ↔ n % 2^32 = 0 := by
  rw [← Int32.toBitVec_inj,← BitVec.toNat_inj]
  simp

section Counting
variable {done : List Bytes} {runs : Runs} {url : Bytes}

private theorem Counted.zero_iff (counted : Counted done runs) :
    runs.cnt = 0 ↔ done.count runs.url % 2^32 = 0 := by
  rw [counted.cnt,ofNat_eq_zero_iff]

private theorem Counted.fresh (counted : Counted done runs) (above : ∀ u ∈ done, u ≤ url)
    (changes : runs.url ≠ url) : done.count url = 0 := by
  apply List.count_eq_zero_of_not_mem
  intro member
  apply changes
  apply le_antisymm
  · exact above _ (counted.current (List.ne_nil_of_mem member))
  · exact counted.greatest url member

private theorem count_next : Int32.ofNat ((done ++ [url]).count url) = Int32.ofNat (done.count url) + 1 := by
  rw [List.count_append,List.count_singleton_self,Int32.ofNat_add]
  rfl

private theorem count_kept (u : Bytes) (different : u ≠ url) : (done ++ [url]).count u = done.count u := by
  rw [List.count_append,List.count_singleton,beq_eq_false_iff_ne.mpr different.symm]
  rfl

private theorem greatest_next (above : ∀ u ∈ done, u ≤ url) : ∀ u ∈ done ++ [url], u ≤ url := by
  intro u member
  rcases List.mem_append.mp member with old | new
  · exact above u old
  · exact (List.mem_singleton.mp new).le

private theorem Counted.first (counted : Counted done runs) (above : ∀ u ∈ done, u ≤ url)
    (zero : runs.cnt = 0) : Counted (done ++ [url]) {runs with url, cnt := 1} := by
  refine ⟨?_,by simp,greatest_next above,?_⟩
  · rw [count_next]
    by_cases same : runs.url = url
    · rw [← same,← counted.cnt,zero]
      rfl
    · rw [counted.fresh above same]
      rfl
  · intro u
    apply (counted.rows u).trans
    by_cases new : u = url
    · subst new
      apply iff_of_false
      · rintro ⟨different,occurs⟩
        exact occurs (by rw [counted.fresh above different.symm,Nat.zero_mod])
      · exact fun other => other.1 rfl
    · rw [count_kept u new]
      refine ⟨fun ended => ⟨new,ended.2⟩,fun other => ⟨?_,other.2⟩⟩
      rintro rfl
      exact other.2 (counted.zero_iff.mp zero)

private theorem Counted.again (counted : Counted done runs) (above : ∀ u ∈ done, u ≤ url)
    (same : runs.url = url) : Counted (done ++ [url]) {runs with cnt := runs.cnt + 1} := by
  subst same
  refine ⟨?_,by simp,greatest_next above,?_⟩
  · rw [count_next,counted.cnt]
  · intro u
    apply (counted.rows u).trans
    apply and_congr_right
    intro different
    rw [count_kept u different]

private theorem Counted.change (counted : Counted done runs) (above : ∀ u ∈ done, u ≤ url)
    (counting : runs.cnt ≠ 0) (changes : runs.url ≠ url) :
    Counted (done ++ [url]) ⟨runs.rows ++ [(runs.url,runs.cnt)],url,1⟩ := by
  refine ⟨?_,by simp,greatest_next above,?_⟩
  · rw [count_next,counted.fresh above changes]
    rfl
  · intro u
    rw [List.map_append,List.mem_append,counted.rows,List.map_singleton,List.mem_singleton]
    by_cases new : u = url
    · subst new
      apply iff_of_false
      · rintro (ended | rfl)
        · exact ended.2 (by rw [counted.fresh above changes,Nat.zero_mod])
        · exact changes rfl
      · exact fun other => other.1 rfl
    · rw [count_kept u new]
      by_cases last : u = runs.url
      · subst last
        exact iff_of_true (.inr rfl) ⟨new,counted.zero_iff.not.mp counting⟩
      · simp only [ne_eq,last,new,or_false]

theorem Counted.count (counted : Counted done runs) (url : Bytes) (above : ∀ u ∈ done, u ≤ url) :
    Counted (done ++ [url]) (runs.count url) := by
  unfold Runs.count
  split
  · rename_i zero
    exact counted.first above zero
  · rename_i counting
    split
    · rename_i same
      exact counted.again above same
    · rename_i changes
      exact counted.change above counting changes

end Counting

theorem counted_sorted (sorted : List Bytes) (ascending : sorted.Pairwise (· ≤ ·)) :
    Counted sorted (sorted.foldl Runs.count Runs.start) := by
  induction sorted using List.reverseRecOn with
  | nil => exact counted_start
  | append_singleton done url ih =>
    obtain ⟨before,_,above⟩ := List.pairwise_append.mp ascending
    rw [List.foldl_append]
    exact (ih before).count url fun u member => above u member url List.mem_cons_self

/-- A batch has a row for each URL that does not occur a multiple of 2^32 times. -/
theorem mem_batchRows (batch : List Bytes) (url : Bytes) :
    url ∈ (batchRows batch).map Prod.fst ↔ batch.count url % 2^32 ≠ 0 := by
  have counted := counted_sorted _ (List.pairwise_insertionSort (· ≤ ·) batch)
  have perm : (batch.insertionSort (· ≤ ·)).Perm batch := List.perm_insertionSort _ _
  rw [batchRows,← perm.count_eq]
  generalize (batch.insertionSort (· ≤ ·)).foldl Runs.count Runs.start = runs at counted
  unfold Runs.finish
  split
  · rename_i zero
    rw [counted.rows,and_iff_right_iff_imp]
    rintro occurs rfl
    exact occurs (counted.zero_iff.mp zero)
  · rename_i counting
    rw [List.map_append,List.mem_append,counted.rows,List.map_singleton,List.mem_singleton]
    by_cases last : url = runs.url
    · subst last
      exact iff_of_true (.inr rfl) (counted.zero_iff.not.mp counting)
    · simp only [last,or_false,ne_eq,not_false_eq_true,true_and]

/-- The batches that are cut from `urls` when `batch` is in the pool. A URL that
the tracker does not admit, whose sum wraps around at 2^64, starts the next one. -/
def cut (limit : UInt64) (batch : List Bytes) : List Bytes → List (List Bytes)
  | [] => if batch = [] then [] else [batch]
  | url :: urls =>
    if limit < UInt64.ofNat (batch.flatten.length + url.length) then batch :: cut limit [url] urls
    else cut limit (batch ++ [url]) urls

theorem cut_alone (limit : UInt64) (url : Bytes) (urls : List Bytes) (low : 1024 ≤ limit.toNat)
    (short : url.length < MAX_URL_LEN) : cut limit [] (url :: urls) = cut limit [url] urls := by
  have small : url.length < 1025 := short
  have fits : ¬ limit < UInt64.ofNat (([] : List Bytes).flatten.length + url.length) := by
    rw [List.flatten_nil,List.length_nil,Nat.zero_add,UInt64.lt_iff_toNat_lt,
      UInt64.toNat_ofNat_of_lt' (small.trans (by decide))]
    omega
  rw [cut,if_neg fits,List.nil_append]

/-- Spilling `rows` to the file `file`, when `before` rows have been written, meets a fault. -/
def SpillMet (faults : Faults) (file before : Nat) (rows : List (Bytes × Int32)) : Prop :=
  faults.createSpill file = true ∨ ∃ n < rows.length, faults.writeRow (before + n) = true

/-- A spill file of the batches cannot be created or a row of them not be written. -/
def FaultMet (faults : Faults) (batches : List (List Bytes)) : Prop :=
  (∃ j < batches.length, faults.createSpill j = true) ∨
    ∃ n < (batches.flatMap batchRows).length, faults.writeRow n = true

theorem FaultMet.append {faults : Faults} {batches : List (List Bytes)} (met : FaultMet faults batches)
    (more : List (List Bytes)) : FaultMet faults (batches ++ more) := by
  rcases met with ⟨j,bound,fault⟩ | ⟨n,bound,fault⟩
  · refine .inl ⟨j,?_,fault⟩
    rw [List.length_append]
    omega
  · refine .inr ⟨n,?_,fault⟩
    rw [List.flatMap_append,List.length_append]
    omega

theorem faultMet_snoc (faults : Faults) (batches : List (List Bytes)) (batch : List Bytes) :
    FaultMet faults (batches ++ [batch]) ↔ FaultMet faults batches ∨
      SpillMet faults batches.length (batches.flatMap batchRows).length (batchRows batch) := by
  constructor
  · rintro (⟨j,bound,fault⟩ | ⟨n,bound,fault⟩)
    · rw [List.length_append,List.length_singleton] at bound
      rcases Nat.lt_succ_iff_lt_or_eq.mp bound with old | rfl
      · exact .inl (.inl ⟨j,old,fault⟩)
      · exact .inr (.inl fault)
    · rw [List.flatMap_append,List.length_append,List.flatMap_singleton] at bound
      by_cases old : n < (batches.flatMap batchRows).length
      · exact .inl (.inr ⟨n,old,fault⟩)
      · refine .inr (.inr ⟨n - (batches.flatMap batchRows).length,by omega,?_⟩)
        rwa [Nat.add_sub_cancel' (not_lt.mp old)]
  · rintro (met | fault | ⟨n,bound,fault⟩)
    · exact met.append [batch]
    · exact .inl ⟨batches.length,by simp,fault⟩
    · refine .inr ⟨_,?_,fault⟩
      rw [List.flatMap_append,List.length_append,List.flatMap_singleton]
      omega

end TopNFreq
