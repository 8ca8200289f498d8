import TopNFreq.ComparatorLaws

/-! The comparisons of the program: the laws at its `memcmp`, the difference of bytes. -/
namespace TopNFreq
open Library.Text Library.Ordering

namespace StringVal
variable (mem : Memory) (a b : StringVal) (storedA : Stored mem a) (storedB : Stored mem b)
include storedA storedB

theorem less_iff : less mem a b = true ↔ a.toString mem < b.toString mem :=
  AnyMemcmp.less_iff memcmp_lawful mem a b storedA storedB

theorem StrEquals_iff : StrEquals mem a b = true ↔ a.toString mem = b.toString mem :=
  AnyMemcmp.StrEquals_iff memcmp_lawful mem a b storedA storedB

end StringVal

theorem ResultTuple.less_iff (mem : Memory) (a b : ResultTuple) (storedA : Stored mem a.str)
    (storedB : Stored mem b.str) : less mem a b = true ↔ a.rank mem < b.rank mem :=
  AnyMemcmp.resultLess_iff memcmp_lawful mem a b storedA storedB

theorem StringLess_iff (mem : Memory) (a b : ResultTuple) (storedA : Stored mem a.str)
    (storedB : Stored mem b.str) : StringLess mem a b = true ↔ b.row mem < a.row mem :=
  AnyMemcmp.StringLess_iff memcmp_lawful mem a b storedA storedB

/-! A comparison reads the memory only at the blocks of its arguments. -/

theorem StringVal.StrCompare_congr {mem other : Memory} {a b : StringVal}
    (left : mem a.ptr = other a.ptr) (right : mem b.ptr = other b.ptr) :
    StrCompare mem a b = StrCompare other a b := by
  simp only [StrCompare,AnyMemcmp.StrCompare,left,right]

theorem StringVal.toString_congr {mem other : Memory} {v : StringVal}
    (same : mem v.ptr = other v.ptr) : v.toString mem = v.toString other := by
  simp only [toString,same]

theorem StringLess_congr {mem other : Memory} {a b : ResultTuple}
    (left : mem a.str.ptr = other a.str.ptr) (right : mem b.str.ptr = other b.str.ptr) :
    StringLess mem a b = StringLess other a b := by
  have compared := StringVal.StrCompare_congr left right
  unfold StringVal.StrCompare at compared
  simp only [StringLess,AnyMemcmp.StringLess,compared]

theorem ResultTuple.less_congr {mem other : Memory} {a b : ResultTuple}
    (left : mem a.str.ptr = other a.str.ptr) (right : mem b.str.ptr = other b.str.ptr) :
    ResultTuple.less mem a b = ResultTuple.less other a b := by
  have compared := StringVal.StrCompare_congr left right
  unfold StringVal.StrCompare at compared
  simp only [less,AnyMemcmp.resultLess,AnyMemcmp.less,compared]

theorem less_strictWeak (mem : Memory) (urls : List StringVal) (stored : ∀ v ∈ urls, Stored mem v) :
    StrictWeakOn (StringVal.less mem) urls :=
  AnyMemcmp.less_strictWeak memcmp_lawful mem urls stored

theorem rank_strictWeak (mem : Memory) (tuples : List ResultTuple)
    (stored : ∀ t ∈ tuples, Stored mem t.str) : StrictWeakOn (ResultTuple.less mem) tuples :=
  AnyMemcmp.rank_strictWeak memcmp_lawful mem tuples stored

theorem row_strictWeak (mem : Memory) (tuples : List ResultTuple)
    (stored : ∀ t ∈ tuples, Stored mem t.str) : StrictWeakOn (StringLess mem) tuples :=
  AnyMemcmp.row_strictWeak memcmp_lawful mem tuples stored

end TopNFreq
