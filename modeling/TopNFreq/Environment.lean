import TopNFreq.Data
import TopNFreq.Library.Ordering

/-! What the program takes from outside: the library and the allocator it is
linked with, the leftovers it finds in uninitialised locals, and the faults of
the file system. -/
namespace TopNFreq
open Library.Ordering

/-- The C++ library and `malloc`. The allocator may depend on the number of
requests made so far; it returns an address that is neither null nor live. -/
structure Platform where
  sorting : SortOp StringVal
  queue : HeapOp ResultTuple
  malloc : Nat → List Ptr → UInt64 → Ptr
  malloc_fresh : ∀ request live size, malloc request live size ∉ live ∧ malloc request live size ≠ nullptr
  /-- The content of an uninitialised local `ResultTuple`, by the number of requests so far. -/
  uninit : Nat → ResultTuple

/-- Which operations on files fail: opening the input, creating or opening a
spill file, writing a row (counted over the run), and the position from which
reading a file fails. -/
structure Faults where
  openInput : Bool
  createSpill : Nat → Bool
  writeRow : Nat → Bool
  openSpill : Nat → Bool
  readInput : Option Nat
  readSpill : Nat → Option Nat

def Faults.none : Faults := ⟨false,fun _ => false,fun _ => false,fun _ => false,Option.none,fun _ => Option.none⟩

structure Env extends Platform where
  faults : Faults

def Env.faultless (env : Env) : Env := {env with faults := Faults.none}

/-- Insertion sort, a descending sequence as heap, and addresses above all live ones. -/
def Platform.reference : Platform where
  sorting := insertionSort StringVal
  queue := descendingHeap ResultTuple
  malloc _ live _ := live.foldr max 0 + 1
  malloc_fresh _ live _ := by
    have bound : ∀ p ∈ live, p ≤ live.foldr max 0 := by
      induction live with
      | nil => simp
      | cons q rest ih =>
        intro p member
        simp only [List.foldr_cons]
        rcases List.mem_cons.mp member with rfl | later
        · exact Nat.le_max_left _ _
        · exact (ih p later).trans (Nat.le_max_right _ _)
    exact ⟨fun member => absurd (bound _ member) (Nat.not_succ_le_self _),Nat.succ_ne_zero _⟩
  uninit _ := default

def Env.reference : Env := {Platform.reference with faults := Faults.none}

end TopNFreq
