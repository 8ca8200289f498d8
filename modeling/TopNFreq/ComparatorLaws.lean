import TopNFreq.Data
import TopNFreq.Library.Ordering
import Mathlib.Data.Prod.Lex
import Mathlib.Order.Lex

/-! The three comparisons of `data.h` over any `memcmp` of the C library, of which only
the sign of the answer is known. They decide the unsigned lexicographic order of the
strings, and with it the orders of rows that the merge heap and the top-N heap use. -/
namespace TopNFreq
open Library.Text Library.Ordering

/-- The block behind a reference holds its string, of a length that fits in an `int`. -/
structure Stored (mem : Memory) (v : StringVal) : Prop where
  inside : v.len ≤ (mem v.ptr).length
  short : v.len < 2^31

/-- A row as the merge ranks it: by string, then by count. -/
abbrev Row := Bytes ×ₗ Int

/-- A result as the top-N heap ranks it, the better one being smaller. -/
abbrev Rank := Intᵒᵈ ×ₗ Bytes

namespace ResultTuple

def row (mem : Memory) (t : ResultTuple) : Row := toLex (t.str.toString mem,t.cnt.toInt)

def rank (mem : Memory) (t : ResultTuple) : Rank := toLex (OrderDual.toDual t.cnt.toInt,t.str.toString mem)

end ResultTuple

/-- The answer has the sign of the first two bytes that differ among the first `n`. -/
structure Memcmp (compare : Bytes → Bytes → Nat → Int32) : Prop where
  zero : ∀ xs ys n, n ≤ xs.length → n ≤ ys.length → xs.take n = ys.take n → compare xs ys n = 0
  below : ∀ same x y xs ys n, same.length < n → x < y → compare (same ++ x :: xs) (same ++ y :: ys) n < 0
  above : ∀ same x y xs ys n, same.length < n → y < x → 0 < compare (same ++ x :: xs) (same ++ y :: ys) n

private theorem byte_difference (x y : Byte) :
    (Int32.ofInt ((x.val : Int) - y.val)).toInt = (x.val : Int) - y.val := by
  have hx := x.isLt
  have hy := y.isLt
  exact Int32.toInt_ofInt_of_le (by omega) (by omega)

/-- The difference of the first bytes that differ is such a `memcmp`. -/
theorem memcmp_lawful : Memcmp memcmp := by
  have skip (same xs ys : Bytes) (n : Nat) (more : same.length < n) :
      ∃ k, memcmp (same ++ xs) (same ++ ys) n = memcmp xs ys (k + 1) := by
    induction same generalizing n with
    | nil => exact ⟨n - 1,by rw [List.nil_append,List.nil_append,Nat.sub_add_cancel (Nat.one_le_of_lt more)]⟩
    | cons x same ih =>
      obtain ⟨n,rfl⟩ := Nat.exists_eq_add_of_le' (Nat.one_le_of_lt more)
      obtain ⟨k,rest⟩ := ih n (by simpa using more)
      exact ⟨k,by simpa only [List.cons_append,memcmp,if_true] using rest⟩
  refine ⟨fun xs ys n left right same => ?_,fun same x y xs ys n more less => ?_,
    fun same x y xs ys n more greater => ?_⟩
  · induction n generalizing xs ys with
    | zero => cases xs <;> cases ys <;> rfl
    | succ n ih =>
      obtain ⟨x,xs,rfl⟩ := List.exists_cons_of_length_pos (by omega : 0 < xs.length)
      obtain ⟨y,ys,rfl⟩ := List.exists_cons_of_length_pos (by omega : 0 < ys.length)
      simp only [List.take_succ_cons,List.cons.injEq] at same
      rw [memcmp,if_pos same.1]
      exact ih xs ys (by simpa using left) (by simpa using right) same.2
  · obtain ⟨k,first⟩ := skip same (x :: xs) (y :: ys) n more
    have : x.val < y.val := less
    rw [first,memcmp,if_neg less.ne,Int32.lt_iff_toInt_lt,byte_difference,Int32.toInt_zero]
    omega
  · obtain ⟨k,first⟩ := skip same (x :: xs) (y :: ys) n more
    have : y.val < x.val := greater
    rw [first,memcmp,if_neg greater.ne',Int32.lt_iff_toInt_lt,byte_difference,Int32.toInt_zero]
    omega

private theorem length_difference (a b : Nat) (shortA : a < 2^31) (shortB : b < 2^31) :
    (Int32.ofNat a - Int32.ofNat b).toInt = (a : Int) - b := by
  rw [Int32.toInt_sub,Int32.toInt_ofNat_of_lt shortA,Int32.toInt_ofNat_of_lt shortB]
  exact Int.bmod_eq_of_le (by omega) (by omega)

private theorem prefix_lt (xs ys : Bytes) (start : xs <+: ys) (shorter : xs.length < ys.length) : xs < ys := by
  obtain ⟨rest,rfl⟩ := start
  obtain ⟨b,rest,rfl⟩ := List.exists_cons_of_length_pos (by simpa using shorter : 0 < rest.length)
  induction xs with
  | nil => exact List.nil_lt_cons b rest
  | cons x xs ih => exact List.cons_lt_cons_iff.mpr (.inr ⟨rfl,ih (by simp)⟩)

/-- Two texts agree in their first `n` bytes, or there is a first byte that differs. -/
private theorem first_difference (xs ys : Bytes) (n : Nat) (left : n ≤ xs.length) (right : n ≤ ys.length) :
    xs.take n = ys.take n ∨ ∃ same x y xs' ys', xs = same ++ x :: xs' ∧ ys = same ++ y :: ys' ∧
      same.length < n ∧ x ≠ y := by
  induction n generalizing xs ys with
  | zero => exact .inl rfl
  | succ n ih =>
    obtain ⟨x,xs,rfl⟩ := List.exists_cons_of_length_pos (by omega : 0 < xs.length)
    obtain ⟨y,ys,rfl⟩ := List.exists_cons_of_length_pos (by omega : 0 < ys.length)
    by_cases equal : x = y
    · subst equal
      rcases ih xs ys (by simpa using left) (by simpa using right) with agree | ⟨same,x',y',xs',ys',rfl,rfl,more,different⟩
      · left
        rw [List.take_succ_cons,List.take_succ_cons,agree]
      · exact .inr ⟨x :: same,x',y',xs',ys',rfl,rfl,by simpa using more,different⟩
    · exact .inr ⟨[],x,y,xs,ys,rfl,rfl,Nat.succ_pos n,equal⟩

private theorem lt_of_difference (same xs ys : Bytes) (x y : Byte) (less : x < y) (first second : Nat)
    (left : same.length < first) (right : same.length < second) :
    (same ++ x :: xs).take first < (same ++ y :: ys).take second := by
  induction same generalizing first second with
  | nil =>
    obtain ⟨first,rfl⟩ := Nat.exists_eq_add_of_le' (Nat.one_le_of_lt left)
    obtain ⟨second,rfl⟩ := Nat.exists_eq_add_of_le' (Nat.one_le_of_lt right)
    exact List.cons_lt_cons_iff.mpr (.inl less)
  | cons b same ih =>
    obtain ⟨first,rfl⟩ := Nat.exists_eq_add_of_le' (Nat.one_le_of_lt left)
    obtain ⟨second,rfl⟩ := Nat.exists_eq_add_of_le' (Nat.one_le_of_lt right)
    exact List.cons_lt_cons_iff.mpr (.inr ⟨rfl,ih first second (by simpa using left) (by simpa using right)⟩)

/-- `memcmp` answers zero on equal bytes and otherwise orders the strings that
extend them. -/
theorem Memcmp.cases {compare : Bytes → Bytes → Nat → Int32} (law : Memcmp compare) (xs ys : Bytes)
    (n first second : Nat) (left : n ≤ first) (right : n ≤ second) (leftIn : n ≤ xs.length)
    (rightIn : n ≤ ys.length) :
    compare xs ys n = 0 ∧ xs.take n = ys.take n ∨
    compare xs ys n < 0 ∧ xs.take first < ys.take second ∨
    0 < compare xs ys n ∧ ys.take second < xs.take first := by
  rcases first_difference xs ys n leftIn rightIn with agree | ⟨same,x,y,xs,ys,rfl,rfl,more,different⟩
  · exact .inl ⟨law.zero xs ys n leftIn rightIn agree,agree⟩
  · right
    rcases lt_or_gt_of_ne different with less | greater
    · exact .inl ⟨law.below same x y xs ys n more less,
        lt_of_difference same xs ys x y less first second (more.trans_le left) (more.trans_le right)⟩
    · exact .inr ⟨law.above same x y xs ys n more greater,
        lt_of_difference same ys xs y x greater second first (more.trans_le right) (more.trans_le left)⟩

theorem StringVal.length_toString (mem : Memory) (v : StringVal) (stored : Stored mem v) :
    (v.toString mem).length = v.len := by
  rw [toString,List.length_take]
  exact Nat.min_eq_left stored.inside

namespace AnyMemcmp
variable {compare : Bytes → Bytes → Nat → Int32} (law : Memcmp compare) (mem : Memory)

section Strings
variable (a b : StringVal) (storedA : Stored mem a) (storedB : Stored mem b)
include law storedA storedB

/-- The three-way comparison is that of the strings, a proper prefix being smaller. -/
theorem StrCompare_cases :
    StrCompare compare mem a b = 0 ∧ a.toString mem = b.toString mem ∨
    StrCompare compare mem a b < 0 ∧ a.toString mem < b.toString mem ∨
    0 < StrCompare compare mem a b ∧ b.toString mem < a.toString mem := by
  obtain ⟨insideA,shortA⟩ := storedA
  obtain ⟨insideB,shortB⟩ := storedB
  have smaller : (if a.len ≤ b.len then a.len else b.len) = min a.len b.len := by
    split <;> omega
  have narrow : ((Int32.ofNat (min a.len b.len)).toInt % 2^64).toNat = min a.len b.len := by
    rw [Int32.toInt_ofNat_of_lt (by omega)]
    omega
  simp only [StrCompare,smaller,narrow]
  rcases law.cases (mem a.ptr) (mem b.ptr) (min a.len b.len) a.len b.len
      (by omega) (by omega) (by omega) (by omega) with ⟨zero,same⟩ | ⟨negative,below⟩ | ⟨positive,above⟩
  · have difference := length_difference a.len b.len shortA shortB
    simp only [zero,if_true,Int32.lt_iff_toInt_lt,← Int32.toInt_inj,difference,Int32.toInt_zero]
    simp only [StringVal.toString]
    rcases Nat.lt_trichotomy a.len b.len with less | equal | greater
    · right; left
      refine ⟨by omega,prefix_lt _ _ ?_ (by simp only [List.length_take]; omega)⟩
      rw [Nat.min_eq_left less.le] at same
      rw [same]
      exact List.take_prefix_take_left less.le
    · left
      refine ⟨by omega,?_⟩
      rw [equal,Nat.min_self] at same
      rw [equal,same]
    · right; right
      refine ⟨by omega,prefix_lt _ _ ?_ (by simp only [List.length_take]; omega)⟩
      rw [Nat.min_eq_right greater.le] at same
      rw [← same]
      exact List.take_prefix_take_left greater.le
  · have nonzero : compare (mem a.ptr) (mem b.ptr) (min a.len b.len) ≠ 0 := fun h => by simp [h] at negative
    simp only [if_neg nonzero]
    exact .inr (.inl ⟨negative,below⟩)
  · have nonzero : compare (mem a.ptr) (mem b.ptr) (min a.len b.len) ≠ 0 := fun h => by simp [h] at positive
    simp only [if_neg nonzero]
    exact .inr (.inr ⟨positive,above⟩)

theorem StrCompare_eq_zero : StrCompare compare mem a b = 0 ↔ a.toString mem = b.toString mem := by
  rcases StrCompare_cases law mem a b storedA storedB with ⟨zero,same⟩ | ⟨negative,below⟩ | ⟨positive,above⟩
  · simp [zero,same]
  · exact ⟨fun h => by simp [h] at negative,fun h => absurd h below.ne⟩
  · exact ⟨fun h => by simp [h] at positive,fun h => absurd h above.ne'⟩

theorem StrCompare_neg : StrCompare compare mem a b < 0 ↔ a.toString mem < b.toString mem := by
  rcases StrCompare_cases law mem a b storedA storedB with ⟨zero,same⟩ | ⟨negative,below⟩ | ⟨positive,above⟩
  · simp [zero,same]
  · exact ⟨fun _ => below,fun _ => negative⟩
  · exact ⟨fun h => absurd (Int32.lt_trans h positive) (Int32.lt_irrefl),fun h => absurd h above.asymm⟩

theorem StrCompare_pos : 0 < StrCompare compare mem a b ↔ b.toString mem < a.toString mem := by
  rcases StrCompare_cases law mem a b storedA storedB with ⟨zero,same⟩ | ⟨negative,below⟩ | ⟨positive,above⟩
  · simp [zero,same]
  · exact ⟨fun h => absurd (Int32.lt_trans h negative) (Int32.lt_irrefl),fun h => absurd h below.asymm⟩
  · exact ⟨fun _ => above,fun _ => positive⟩

theorem StrCompare_nonpos : StrCompare compare mem a b ≤ 0 ↔ a.toString mem ≤ b.toString mem := by
  rw [← Int32.not_lt,StrCompare_pos law mem a b storedA storedB,not_lt]

theorem less_iff : less compare mem a b = true ↔ a.toString mem < b.toString mem := by
  rw [less,decide_eq_true_iff]
  exact StrCompare_neg law mem a b storedA storedB

theorem StrEquals_iff : StrEquals compare mem a b = true ↔ a.toString mem = b.toString mem := by
  rw [StrEquals,decide_eq_true_iff]
  exact StrCompare_eq_zero law mem a b storedA storedB

end Strings

section Tuples
variable (a b : ResultTuple) (storedA : Stored mem a.str) (storedB : Stored mem b.str)
include law storedA storedB

theorem resultLess_iff : resultLess compare mem a b = true ↔ a.rank mem < b.rank mem := by
  simp only [resultLess,ResultTuple.rank,Prod.Lex.toLex_lt_toLex,OrderDual.toDual_lt_toDual,gt_iff_lt,
    Int32.lt_iff_toInt_lt,OrderDual.toDual_inj]
  split
  · simp [*]
  · split
    · rename_i notMore fewer
      simp only [Bool.false_eq_true,false_iff,not_or,not_and]
      exact ⟨notMore,fun equal => absurd equal fewer.ne⟩
    · rename_i notMore notFewer
      have equal : a.cnt.toInt = b.cnt.toInt := by omega
      rw [less_iff law mem _ _ storedA storedB]
      simp [equal]

theorem StringLess_iff : StringLess compare mem a b = true ↔ b.row mem < a.row mem := by
  simp only [StringLess,ResultTuple.row,Prod.Lex.toLex_lt_toLex]
  split
  · rename_i zero
    have same := (StrCompare_eq_zero law mem _ _ storedA storedB).mp zero
    simp [same,Int32.lt_iff_toInt_lt]
  · rename_i nonzero
    have different : a.str.toString mem ≠ b.str.toString mem :=
      fun h => nonzero ((StrCompare_eq_zero law mem _ _ storedA storedB).mpr h)
    simp only [gt_iff_lt,decide_eq_true_eq,StrCompare_pos law mem _ _ storedA storedB]
    exact ⟨.inl,fun h => h.resolve_right fun equal => different equal.1.symm⟩

end Tuples

section Orders
include law

theorem less_strictWeak (urls : List StringVal) (stored : ∀ v ∈ urls, Stored mem v) :
    StrictWeakOn (less compare mem) urls :=
  StrictWeakOn.of_key (StringVal.toString mem)
    fun a ha b hb => less_iff law mem a b (stored a ha) (stored b hb)

theorem rank_strictWeak (tuples : List ResultTuple) (stored : ∀ t ∈ tuples, Stored mem t.str) :
    StrictWeakOn (resultLess compare mem) tuples :=
  StrictWeakOn.of_key (ResultTuple.rank mem)
    fun a ha b hb => resultLess_iff law mem a b (stored a ha) (stored b hb)

theorem row_strictWeak (tuples : List ResultTuple) (stored : ∀ t ∈ tuples, Stored mem t.str) :
    StrictWeakOn (StringLess compare mem) tuples :=
  StrictWeakOn.of_key (fun t => OrderDual.toDual (t.row mem))
    fun a ha b hb => by
      rw [OrderDual.toDual_lt_toDual]
      exact StringLess_iff law mem a b (stored a ha) (stored b hb)

end Orders

/-- The laws of the comparisons and what they have to do with one another. -/
structure Lawful (compare : Bytes → Bytes → Nat → Int32) (mem : Memory) : Prop where
  sign : ∀ a b, Stored mem a → Stored mem b →
    (StrCompare compare mem a b < 0 ↔ a.toString mem < b.toString mem) ∧
    (StrCompare compare mem a b = 0 ↔ a.toString mem = b.toString mem) ∧
    (0 < StrCompare compare mem a b ↔ b.toString mem < a.toString mem)
  antisymm : ∀ a b, Stored mem a → Stored mem b →
    (StrCompare compare mem a b < 0 ↔ 0 < StrCompare compare mem b a)
  trans : ∀ a b c, Stored mem a → Stored mem b → Stored mem c → StrCompare compare mem a b ≤ 0 →
    StrCompare compare mem b c ≤ 0 → StrCompare compare mem a c ≤ 0
  strings : ∀ urls, (∀ v ∈ urls, Stored mem v) → StrictWeakOn (less compare mem) urls
  rows : ∀ tuples, (∀ t ∈ tuples, Stored mem t.str) → StrictWeakOn (StringLess compare mem) tuples
  results : ∀ tuples, (∀ t ∈ tuples, Stored mem t.str) → StrictWeakOn (resultLess compare mem) tuples
  equals : ∀ a b, Stored mem a → Stored mem b →
    (StrEquals compare mem a b = true ↔ less compare mem a b = false ∧ less compare mem b a = false)
  rows_iff : ∀ a b, Stored mem a.str → Stored mem b.str →
    (StringLess compare mem a b = true ↔ b.row mem < a.row mem)
  rows_strings : ∀ a b, Stored mem a.str → Stored mem b.str →
    a.str.toString mem ≠ b.str.toString mem ∨ a.cnt = b.cnt →
    StringLess compare mem a b = less compare mem b.str a.str
  results_iff : ∀ a b, Stored mem a.str → Stored mem b.str →
    (resultLess compare mem a b = true ↔ a.rank mem < b.rank mem)
  total : ∀ a b, Stored mem a.str → Stored mem b.str →
    resultLess compare mem a b = true ∨ resultLess compare mem b a = true ∨
      a.cnt = b.cnt ∧ a.str.toString mem = b.str.toString mem

end AnyMemcmp

open AnyMemcmp

/-- The comparators are lawful and agree with one another, whatever the `memcmp`. -/
theorem comparators_lawful (compare : Bytes → Bytes → Nat → Int32) (law : Memcmp compare) (mem : Memory) :
    Lawful compare mem where
  sign a b storedA storedB :=
    ⟨StrCompare_neg law mem a b storedA storedB,StrCompare_eq_zero law mem a b storedA storedB,
      StrCompare_pos law mem a b storedA storedB⟩
  antisymm a b storedA storedB := by
    rw [StrCompare_neg law mem a b storedA storedB,StrCompare_pos law mem b a storedB storedA]
  trans a b c storedA storedB storedC := by
    rw [StrCompare_nonpos law mem a b storedA storedB,StrCompare_nonpos law mem b c storedB storedC,
      StrCompare_nonpos law mem a c storedA storedC]
    exact le_trans
  strings := less_strictWeak law mem
  rows := row_strictWeak law mem
  results := rank_strictWeak law mem
  equals a b storedA storedB := by
    rw [StrEquals_iff law mem a b storedA storedB,← Bool.not_eq_true,← Bool.not_eq_true,
      less_iff law mem a b storedA storedB,less_iff law mem b a storedB storedA,not_lt,not_lt,
      and_comm,← le_antisymm_iff]
  rows_iff a b storedA storedB := StringLess_iff law mem a b storedA storedB
  rows_strings a b storedA storedB alike := by
    rw [Bool.eq_iff_iff,StringLess_iff law mem a b storedA storedB,less_iff law mem _ _ storedB storedA,
      ResultTuple.row,ResultTuple.row,Prod.Lex.toLex_lt_toLex]
    rcases alike with different | equal
    · exact or_iff_left fun same => different same.1.symm
    · exact or_iff_left fun same => by simp [equal] at same
  results_iff a b storedA storedB := resultLess_iff law mem a b storedA storedB
  total a b storedA storedB := by
    rw [resultLess_iff law mem a b storedA storedB,resultLess_iff law mem b a storedB storedA]
    rcases lt_trichotomy (a.rank mem) (b.rank mem) with first | same | second
    · exact .inl first
    · have parts := congrArg ofLex same
      simp only [ResultTuple.rank,ofLex_toLex,Prod.mk.injEq,OrderDual.toDual_inj,Int32.toInt_inj] at parts
      exact .inr (.inr parts)
    · exact .inr (.inl second)

/-- The difference of bytes, on blocks that hold `ab`. -/
theorem comparators_lawful_difference : Lawful memcmp (fun _ => [97,98]) :=
  comparators_lawful memcmp memcmp_lawful fun _ => [97,98]

end TopNFreq
