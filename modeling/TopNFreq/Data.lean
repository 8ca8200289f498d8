import TopNFreq.Library.Text

/-! `data.h`: string references, result tuples and the three comparisons. A
`char*` is the address of a block of `Memory`; comparing two strings reads the
blocks, so every comparison takes the memory as an argument. -/
namespace TopNFreq
open Library.Text

abbrev Ptr := Nat

def nullptr : Ptr := 0

/-- The bytes stored in the block at each address. -/
abbrev Memory := Ptr → Bytes

/-- The difference of the first two bytes that differ among the first `n`. -/
def memcmp : Bytes → Bytes → Nat → Int32
  | x :: xs, y :: ys, n+1 => if x = y then memcmp xs ys n else Int32.ofInt (x.val - y.val)
  | _, _, _ => 0

structure StringVal where
  ptr : Ptr
  len : Nat
deriving DecidableEq, Inhabited

/-- `cnt` is an `int`. Where it overflows, which is undefined in C++, it wraps around here. -/
structure ResultTuple where
  str : StringVal
  cnt : Int32
  file_index : Nat
deriving DecidableEq, Inhabited

/-! The comparisons over any `memcmp`. Those of the program are over the one above. -/
namespace AnyMemcmp
variable (compare : Bytes → Bytes → Nat → Int32) (mem : Memory)

/-- The lengths are narrowed from `size_t` to `int`, and the smaller one is
widened again for `memcmp`. -/
def StrCompare (self other : StringVal) : Int32 :=
  let min_len := Int32.ofNat (if self.len ≤ other.len then self.len else other.len)
  let cmp := compare (mem self.ptr) (mem other.ptr) (min_len.toInt % 2^64).toNat
  if cmp = 0 then Int32.ofNat self.len - Int32.ofNat other.len else cmp

def less (self other : StringVal) : Bool := StrCompare compare mem self other < 0

def StrEquals (self other : StringVal) : Bool := StrCompare compare mem self other = 0

/-- `operator<`, the order of the top-N heap: a tuple with more occurrences, or
as many and a smaller string, is less, so that the worst one is on the top. -/
def resultLess (self other : ResultTuple) : Bool :=
  if self.cnt > other.cnt then true
  else if self.cnt < other.cnt then false
  else less compare mem self.str other.str

/-- The order of the merge heap: the smallest string, then the smallest count, on the top. -/
def StringLess (a b : ResultTuple) : Bool :=
  let cmp := StrCompare compare mem a.str b.str
  if cmp = 0 then a.cnt > b.cnt else cmp > 0

end AnyMemcmp

namespace StringVal

def StrCompare (mem : Memory) (self other : StringVal) : Int32 := AnyMemcmp.StrCompare memcmp mem self other

def less (mem : Memory) (self other : StringVal) : Bool := AnyMemcmp.less memcmp mem self other

def StrEquals (mem : Memory) (self other : StringVal) : Bool := AnyMemcmp.StrEquals memcmp mem self other

def toString (mem : Memory) (self : StringVal) : Bytes := (mem self.ptr).take self.len

end StringVal

namespace ResultTuple

/-- `operator<` -/
def less (mem : Memory) (self other : ResultTuple) : Bool := AnyMemcmp.resultLess memcmp mem self other

def StrEquals (mem : Memory) (self other : ResultTuple) : Bool := self.str.StrEquals mem other.str

def Init (self : ResultTuple) (str_val : StringVal) : ResultTuple := {self with str := str_val, cnt := 1}

def SetEmpty (self : ResultTuple) : ResultTuple := {self with cnt := 0}

def IsEmpty (self : ResultTuple) : Bool := self.cnt = 0

def toString (mem : Memory) (self : ResultTuple) : Bytes :=
  self.str.toString mem ++ tab :: decimalInt self.cnt.toInt

@[simp] theorem Init_str (self : ResultTuple) (str_val : StringVal) : (self.Init str_val).str = str_val := rfl

theorem isEmpty_iff (self : ResultTuple) : self.IsEmpty = true ↔ self.cnt = 0 := decide_eq_true_iff

end ResultTuple

def StringLess (mem : Memory) (a b : ResultTuple) : Bool := AnyMemcmp.StringLess memcmp mem a b

end TopNFreq
