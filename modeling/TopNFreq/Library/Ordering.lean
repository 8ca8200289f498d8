import Mathlib.Data.List.Perm.Basic
import Mathlib.Data.List.Pairwise
import Mathlib.Order.Lattice

/-! What a program may assume of a sorting routine and of a binary heap whose
comparison is supplied by the caller. The comparison need only be a strict weak
order on the elements at hand; on other arguments it may answer anything. -/
namespace Library.Ordering

universe u v
variable {α : Type u} {β : Type v}

/-- `less` is a strict weak order on the elements of `items`. -/
structure StrictWeakOn (less : α → α → Bool) (items : List α) : Prop where
  asymm : ∀ a ∈ items, ∀ b ∈ items, less a b = true → less b a = false
  negTrans : ∀ a ∈ items, ∀ b ∈ items, ∀ c ∈ items,
    less a b = false → less b c = false → less a c = false

theorem StrictWeakOn.subset {less : α → α → Bool} {items fewer : List α}
    (order : StrictWeakOn less items) (inside : ∀ a ∈ fewer, a ∈ items) :
    StrictWeakOn less fewer :=
  ⟨fun a ha b hb => order.asymm a (inside a ha) b (inside b hb),
    fun a ha b hb c hc => order.negTrans a (inside a ha) b (inside b hb) c (inside c hc)⟩

theorem StrictWeakOn.flip {less : α → α → Bool} {items : List α}
    (order : StrictWeakOn less items) : StrictWeakOn (fun a b => less b a) items :=
  ⟨fun a ha b hb => order.asymm b hb a ha,
    fun a ha b hb c hc first second => order.negTrans c hc b hb a ha second first⟩

theorem StrictWeakOn.of_key [LinearOrder β] {less : α → α → Bool} {items : List α} (key : α → β)
    (reads : ∀ a ∈ items, ∀ b ∈ items, less a b = true ↔ key a < key b) :
    StrictWeakOn less items := by
  constructor
  · intro a ha b hb first
    have up := (reads a ha b hb).mp first
    exact Bool.eq_false_iff.mpr fun second => lt_asymm up ((reads b hb a ha).mp second)
  · intro a ha b hb c hc first second
    have left : key b ≤ key a := not_lt.mp fun h => Bool.eq_false_iff.mp first ((reads a ha b hb).mpr h)
    have right : key c ≤ key b := not_lt.mp fun h => Bool.eq_false_iff.mp second ((reads b hb c hc).mpr h)
    exact Bool.eq_false_iff.mpr fun third =>
      absurd ((reads a ha c hc).mp third) (not_lt.mpr (right.trans left))

/-- A sorting routine: on a strict weak order it returns a permutation of its
input in which no element is followed by a smaller one. -/
structure SortOp (α : Type u) where
  sort : (α → α → Bool) → List α → List α
  perm : ∀ (less : α → α → Bool) (items : List α), StrictWeakOn less items →
    (sort less items).Perm items
  sorted : ∀ (less : α → α → Bool) (items : List α), StrictWeakOn less items →
    (sort less items).Pairwise (fun a b => less b a = false)

/-- The heap algorithms on a sequence whose first element is the top. `IsHeap`
is the arrangement an implementation keeps; it depends on the comparison only
through its values on the elements of the sequence. `pop` compares no elements
but those that stay. -/
structure HeapOp (α : Type u) where
  IsHeap : (α → α → Bool) → List α → Prop
  push : (α → α → Bool) → List α → α → List α
  pop : (α → α → Bool) → List α → List α
  isHeap_nil : ∀ less, IsHeap less []
  isHeap_congr : ∀ (less other : α → α → Bool) (heap : List α),
    (∀ a ∈ heap, ∀ b ∈ heap, less a b = other a b) → IsHeap less heap → IsHeap other heap
  push_perm : ∀ (less : α → α → Bool) (heap : List α) (item : α),
    (push less heap item).Perm (item :: heap)
  push_isHeap : ∀ (less : α → α → Bool) (heap : List α) (item : α),
    StrictWeakOn less (item :: heap) → IsHeap less heap → IsHeap less (push less heap item)
  top_max : ∀ (less : α → α → Bool) (top : α) (heap : List α), StrictWeakOn less (top :: heap) →
    IsHeap less (top :: heap) → ∀ a ∈ heap, less top a = false
  pop_perm : ∀ (less : α → α → Bool) (top : α) (heap : List α),
    (pop less (top :: heap)).Perm heap
  pop_congr : ∀ (less other : α → α → Bool) (top : α) (heap : List α),
    (∀ a ∈ heap, ∀ b ∈ heap, less a b = other a b) → pop less (top :: heap) = pop other (top :: heap)
  pop_isHeap : ∀ (less : α → α → Bool) (top : α) (heap : List α), StrictWeakOn less (top :: heap) →
    IsHeap less (top :: heap) → IsHeap less (pop less (top :: heap))

/-! A reference implementation of both contracts: sequences kept in descending order. -/

def insertDescending (less : α → α → Bool) (item : α) : List α → List α
  | [] => [item]
  | a :: rest => if less item a then a :: insertDescending less item rest else item :: a :: rest

def Descending (less : α → α → Bool) (items : List α) : Prop :=
  items.Pairwise (fun a b => less a b = false)

theorem insertDescending_perm (less : α → α → Bool) (item : α) (items : List α) :
    (insertDescending less item items).Perm (item :: items) := by
  induction items with
  | nil => exact List.Perm.refl _
  | cons a rest ih =>
    unfold insertDescending
    split
    · exact (ih.cons a).trans (List.Perm.swap item a rest)
    · exact List.Perm.refl _

theorem insertDescending_descending (less : α → α → Bool) (item : α) (items : List α)
    (order : StrictWeakOn less (item :: items)) (descending : Descending less items) :
    Descending less (insertDescending less item items) := by
  induction items with
  | nil => exact List.pairwise_singleton _ _
  | cons a rest ih =>
    obtain ⟨head,tail⟩ := List.pairwise_cons.mp descending
    have ha : a ∈ item :: a :: rest := by simp
    unfold insertDescending
    split
    · rename_i smaller
      have smallerOrder : StrictWeakOn less (item :: rest) := order.subset (by simp +contextual)
      refine List.pairwise_cons.mpr ⟨?_,ih smallerOrder tail⟩
      intro b member
      rcases List.mem_cons.mp ((insertDescending_perm less item rest).mem_iff.mp member) with rfl | later
      · exact order.asymm b (by simp) a ha smaller
      · exact head b later
    · rename_i notSmaller
      have first := Bool.eq_false_iff.mpr notSmaller
      refine List.pairwise_cons.mpr ⟨?_,descending⟩
      intro b member
      rcases List.mem_cons.mp member with rfl | later
      · exact first
      · exact order.negTrans item (by simp) a ha b (by simp [later]) first (head b later)

def insertionSort (α : Type u) : SortOp α where
  sort less items := items.foldr (insertDescending (fun a b => less b a)) []
  perm less items order := by
    clear order
    induction items with
    | nil => exact List.Perm.refl _
    | cons a rest ih => exact (insertDescending_perm _ a _).trans (ih.cons a)
  sorted less items order := by
    have run : (items.foldr (insertDescending (fun a b => less b a)) []).Perm items ∧
        Descending (fun a b => less b a) (items.foldr (insertDescending (fun a b => less b a)) []) := by
      induction items with
      | nil => exact ⟨List.Perm.refl _,List.Pairwise.nil⟩
      | cons a rest ih =>
        obtain ⟨same,descending⟩ := ih (order.subset (by simp +contextual))
        have within : StrictWeakOn (fun a b => less b a)
            (a :: rest.foldr (insertDescending (fun a b => less b a)) []) :=
          order.flip.subset (by intro b member; simpa [same.mem_iff] using member)
        exact ⟨(insertDescending_perm _ a _).trans (same.cons a),
          insertDescending_descending _ a _ within descending⟩
    exact run.2

/-- The heap contract realised by a descending sequence. -/
def descendingHeap (α : Type u) : HeapOp α where
  IsHeap := Descending
  push less heap item := insertDescending less item heap
  pop _ heap := heap.tail
  isHeap_nil _ := List.Pairwise.nil
  isHeap_congr less other heap same descending := by
    refine List.Pairwise.imp_of_mem ?_ descending
    intro a b ha hb value
    rw [← same a ha b hb]
    exact value
  push_perm less heap item := insertDescending_perm less item heap
  push_isHeap less heap item order heaped := insertDescending_descending less item heap order heaped
  top_max less top heap _ heaped := (List.pairwise_cons.mp heaped).1
  pop_perm _ _ heap := List.Perm.refl heap
  pop_congr _ _ _ _ _ := rfl
  pop_isHeap _ _ _ _ heaped := (List.pairwise_cons.mp heaped).2

end Library.Ordering
