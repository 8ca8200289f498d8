import Mathlib.Data.List.Sort
import Mathlib.Order.Basic

/-! Keeping the `limit` least elements of a stream of offers, and emitting a
collection least element first. Both are stated for whatever order the caller
ranks its elements by. -/
namespace Library.Selection

universe u v
variable {α : Type u}

section Bounded
variable [LinearOrder α]

section Keyed
variable {β : Type v} {key : β → α} {limit : Nat} {offered kept dropped rest : List β} {item worst : β}

/-- `kept` are `limit` elements of `offered` with least keys, or all of them when there
are fewer; `dropped` are the others. -/
structure Splits (key : β → α) (limit : Nat) (offered kept dropped : List β) : Prop where
  same : offered.Perm (kept ++ dropped)
  least : ∀ k ∈ kept, ∀ d ∈ dropped, key k ≤ key d
  size : kept.length = min limit offered.length

theorem splits_nil (key : β → α) (limit : Nat) : Splits key limit [] [] [] :=
  ⟨List.Perm.refl _,by simp,by simp⟩

/-- One offer to a collection of at most `limit` elements: while there is room nothing is
dropped, then one element with a greatest key. -/
structure Trims (key : β → α) (limit : Nat) (item : β) (held kept dropped : List β) : Prop where
  same : (item :: held).Perm (kept ++ dropped)
  shape : dropped = [] ∧ held.length < limit ∨
    ∃ worst, dropped = [worst] ∧ held.length = limit ∧ ∀ k ∈ kept, key k ≤ key worst

theorem Splits.none_dropped (splits : Splits key limit offered kept dropped) (room : kept.length < limit) :
    dropped = [] := by
  have total := splits.same.length_eq
  have size := splits.size
  rw [List.length_append] at total
  exact List.eq_nil_of_length_eq_zero (by omega)

theorem Trims.length {held : List β} (trims : Trims key limit item held kept dropped) :
    kept.length = min limit (held.length + 1) := by
  have lengths := trims.same.length_eq
  rw [List.length_cons,List.length_append] at lengths
  rcases trims.shape with ⟨rfl,room⟩ | ⟨worst,rfl,full,_⟩
  · rw [List.length_nil] at lengths
    omega
  · rw [List.length_singleton] at lengths
    omega

/-- The rule of a round: what is kept and dropped stays a split of all offers. -/
theorem Splits.trim {held gone : List β} (splits : Splits key limit offered held gone)
    (trims : Trims key limit item held kept dropped) :
    Splits key limit (item :: offered) kept (dropped ++ gone) := by
  refine ⟨?_,?_,?_⟩
  · calc (item :: offered).Perm (item :: held ++ gone) := splits.same.cons item
      _ |>.Perm (kept ++ dropped ++ gone) := trims.same.append_right gone
      _ |>.Perm (kept ++ (dropped ++ gone)) := by rw [List.append_assoc]
  · intro k member d memberDropped
    rcases trims.shape with ⟨rfl,room⟩ | ⟨worst,rfl,_,greatest⟩
    · rw [splits.none_dropped room] at memberDropped
      cases memberDropped
    · rcases List.mem_cons.mp memberDropped with rfl | earlier
      · exact greatest k member
      -- `k` was held before, or it is the new item and some held element was dropped for it.
      have whole := trims.same.mem_iff (a := k)
      rcases List.mem_cons.mp (whole.mpr (List.mem_append_left _ member)) with rfl | old
      · have last := trims.same.mem_iff (a := worst)
        rcases List.mem_cons.mp (last.mpr (List.mem_append_right _ List.mem_cons_self)) with rfl | before
        · have others : held.Perm kept := by
            have moved := trims.same.trans (List.perm_append_singleton worst kept)
            exact moved.cons_inv
          exact splits.least worst (others.mem_iff.mpr member) d earlier
        · exact (greatest k member).trans (splits.least worst before d earlier)
      · exact splits.least k old d earlier
  · have size := splits.size
    rw [trims.length,List.length_cons]
    omega

theorem Trims.congr {held : List β} {other : β → α} (trims : Trims key limit item held kept dropped)
    (agree : ∀ x ∈ item :: held, key x = other x) : Trims other limit item held kept dropped := by
  refine ⟨trims.same,trims.shape.imp_right ?_⟩
  rintro ⟨worst,rfl,full,greatest⟩
  refine ⟨worst,rfl,full,?_⟩
  intro k member
  rw [← agree k (trims.same.mem_iff.mpr (List.mem_append_left _ member)),
    ← agree worst (trims.same.mem_iff.mpr (List.mem_append_right _ List.mem_cons_self))]
  exact greatest k member

theorem Trims.map {held : List β} (trims : Trims key limit item held kept dropped) :
    Trims id limit (key item) (held.map key) (kept.map key) (dropped.map key) := by
  refine ⟨?_,?_⟩
  · rw [← List.map_cons,← List.map_append]
    exact trims.same.map key
  · rcases trims.shape with ⟨rfl,room⟩ | ⟨worst,rfl,full,greatest⟩
    · exact .inl ⟨rfl,by simpa using room⟩
    · refine .inr ⟨key worst,rfl,by simpa using full,?_⟩
      intro k member
      obtain ⟨a,inside,rfl⟩ := List.mem_map.mp member
      exact greatest a inside

theorem Splits.kept_perm (splits : Splits key limit offered kept dropped) (same : kept.Perm rest) :
    Splits key limit offered rest dropped :=
  ⟨splits.same.trans (same.append_right dropped),fun k member => splits.least k (same.mem_iff.mpr member),
    same.length_eq ▸ splits.size⟩

theorem Splits.offered_perm {other : List β} (splits : Splits key limit offered kept dropped)
    (same : offered.Perm other) : Splits key limit other kept dropped :=
  ⟨same.symm.trans splits.same,splits.least,same.length_eq ▸ splits.size⟩

end Keyed

/-- `kept` are `limit` least elements of `offered`, or all of them when there are fewer. -/
structure Selects (limit : Nat) (offered kept : List α) : Prop where
  split : ∃ dropped, offered.Perm (kept ++ dropped) ∧ ∀ k ∈ kept, ∀ d ∈ dropped, k ≤ d
  size : kept.length = min limit offered.length

theorem selects_nil (limit : Nat) : Selects limit ([] : List α) [] :=
  ⟨⟨[],List.Perm.refl _,by simp⟩,by simp⟩

theorem Splits.selects {β : Type v} {key : β → α} {limit : Nat} {offered kept dropped : List β}
    (splits : Splits key limit offered kept dropped) : Selects limit (offered.map key) (kept.map key) := by
  refine ⟨⟨dropped.map key,?_,?_⟩,by simpa using splits.size⟩
  · rw [← List.map_append]
    exact splits.same.map key
  · intro k memberK d memberD
    obtain ⟨a,insideA,rfl⟩ := List.mem_map.mp memberK
    obtain ⟨b,insideB,rfl⟩ := List.mem_map.mp memberD
    exact splits.least a insideA b insideB

theorem Selects.splits {limit : Nat} {offered kept : List α} (selects : Selects limit offered kept) :
    ∃ dropped, Splits id limit offered kept dropped := by
  obtain ⟨⟨dropped,parts,least⟩,size⟩ := selects
  exact ⟨dropped,parts,least,size⟩

theorem Splits.to_selects {limit : Nat} {offered kept dropped : List α}
    (splits : Splits id limit offered kept dropped) : Selects limit offered kept := by
  simpa using splits.selects

theorem Selects.perm {limit : Nat} {offered kept other : List α} (selects : Selects limit offered kept)
    (same : kept.Perm other) : Selects limit offered other := by
  obtain ⟨dropped,splits⟩ := selects.splits
  exact (splits.kept_perm same).to_selects

theorem Selects.offered_perm {limit : Nat} {offered other kept : List α}
    (selects : Selects limit offered kept) (same : offered.Perm other) : Selects limit other kept := by
  obtain ⟨dropped,splits⟩ := selects.splits
  exact (splits.offered_perm same).to_selects

theorem Selects.trim {limit : Nat} {offered held kept dropped : List α} {item : α}
    (selects : Selects limit offered held) (trims : Trims id limit item held kept dropped) :
    Selects limit (item :: offered) kept := by
  obtain ⟨gone,splits⟩ := selects.splits
  exact (splits.trim trims).to_selects

/-- Put in order, the kept elements are the head of the whole sequence put in order. -/
theorem Selects.take {limit : Nat} {offered kept sorted : List α} (selects : Selects limit offered kept)
    (ascending : kept.Pairwise (· ≤ ·)) (same : sorted.Perm offered)
    (ordered : sorted.Pairwise (· ≤ ·)) : kept = sorted.take limit := by
  obtain ⟨⟨dropped,parts,least⟩,size⟩ := selects
  let tail := dropped.insertionSort (· ≤ ·)
  have tailPerm : tail.Perm dropped := List.perm_insertionSort _ _
  have whole : (kept ++ tail).Pairwise (· ≤ ·) :=
    List.pairwise_append.mpr ⟨ascending,List.pairwise_insertionSort _ _,
      fun k memberK d memberD => least k memberK d (tailPerm.mem_iff.mp memberD)⟩
  have equal : sorted = kept ++ tail :=
    (same.trans (parts.trans (tailPerm.symm.append_left kept))).eq_of_pairwise
      (fun _ _ _ _ => le_antisymm) ordered whole
  have total := parts.length_eq
  rw [List.length_append,← tailPerm.length_eq] at total
  rw [equal,List.take_append]
  rcases Nat.le_total limit offered.length with short | long
  · have exact : kept.length = limit := by omega
    rw [← exact,List.take_length,Nat.sub_self,List.take_zero,List.append_nil]
  · have none : tail = [] := List.eq_nil_of_length_eq_zero (by omega)
    rw [none,List.take_nil,List.append_nil,List.take_of_length_le (by omega)]

/-- Which keys are kept does not depend on the order of the offers. -/
theorem Selects.unique {limit : Nat} {offered kept other : List α} (selects : Selects limit offered kept)
    (again : Selects limit offered other) : kept.Perm other := by
  have sorted (items : List α) : (items.insertionSort (· ≤ ·)).Perm items := List.perm_insertionSort _ _
  have first := (selects.perm (sorted kept).symm).take (List.pairwise_insertionSort _ _) (sorted offered)
    (List.pairwise_insertionSort _ _)
  have second := (again.perm (sorted other).symm).take (List.pairwise_insertionSort _ _) (sorted offered)
    (List.pairwise_insertionSort _ _)
  exact (sorted kept).symm.trans (first.trans second.symm ▸ sorted other)

end Bounded

section Emission
variable {le : α → α → Prop}

/-- `out` has been emitted from `all` in order, `pending` is what is left. -/
structure LeastFirst (le : α → α → Prop) (all out pending : List α) : Prop where
  same : all.Perm (out ++ pending)
  ascending : out.Pairwise le
  ahead : ∀ a ∈ out, ∀ b ∈ pending, le a b

theorem leastFirst_start {all pending : List α} (same : all.Perm pending) :
    LeastFirst le all [] pending :=
  ⟨by simpa using same,List.Pairwise.nil,by simp⟩

theorem LeastFirst.emit {all out pending rest : List α} {item : α}
    (emitted : LeastFirst le all out pending) (same : pending.Perm (item :: rest))
    (least : ∀ b ∈ rest, le item b) : LeastFirst le all (out ++ [item]) rest := by
  refine ⟨?_,?_,?_⟩
  · calc all.Perm (out ++ pending) := emitted.same
      _ |>.Perm (out ++ (item :: rest)) := same.append_left out
      _ |>.Perm (out ++ [item] ++ rest) := by simp
  · refine List.pairwise_append.mpr ⟨emitted.ascending,List.pairwise_singleton _ _,?_⟩
    intro a memberA b memberB
    rw [List.mem_singleton.mp memberB]
    exact emitted.ahead a memberA item (same.mem_iff.mpr (by simp))
  · intro a memberA b memberB
    rcases List.mem_append.mp memberA with old | new
    · exact emitted.ahead a old b (same.mem_iff.mpr (by simp [memberB]))
    · rw [List.mem_singleton.mp new]
      exact least b memberB

theorem LeastFirst.finish {all out : List α} (emitted : LeastFirst le all out []) :
    out.Perm all ∧ out.Pairwise le :=
  ⟨by simpa using emitted.same.symm,emitted.ascending⟩

end Emission

section Tails

theorem flatMap_range_pop (k i : Nat) (bound : i < k) (tails : Nat → List α) (item : α)
    (rest : List α) (head : tails i = item :: rest) :
    ((List.range k).flatMap tails).Perm
      (item :: (List.range k).flatMap (Function.update tails i rest)) := by
  induction k with
  | zero => omega
  | succ k ih =>
    rw [List.range_succ,List.flatMap_append,List.flatMap_append]
    simp only [List.flatMap_cons,List.flatMap_nil,List.append_nil]
    by_cases last : i = k
    · subst last
      have before : (List.range i).flatMap (Function.update tails i rest) =
          (List.range i).flatMap tails := by
        apply List.flatMap_congr
        intro j member
        rw [Function.update_of_ne (by have := List.mem_range.mp member; omega)]
      rw [before,head,Function.update_self]
      exact List.perm_middle
    · rw [Function.update_of_ne (Ne.symm last)]
      exact (ih (by omega)).append_right _

end Tails
end Library.Selection
