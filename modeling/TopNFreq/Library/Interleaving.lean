import TopNFreq.Library.Selection
import Mathlib.Logic.Function.Basic

/-! Merging several sequences by always taking a head that no other head is before.
The sequences may grow at their ends while the merge runs, as long as their heads
are known. -/
namespace Library.Interleaving

universe u v
variable {ι : Type u} {α : Type v} [DecidableEq ι]

/-- Add items at the end of one sequence. -/
def extend (files : ι → List α) (i : ι) (more : List α) : ι → List α :=
  Function.update files i (files i ++ more)

@[simp] theorem extend_self (files : ι → List α) (i : ι) (more : List α) : extend files i more i = files i ++ more :=
  Function.update_self ..

theorem extend_of_ne (files : ι → List α) {i j : ι} (more : List α) (different : j ≠ i) :
    extend files i more j = files j :=
  Function.update_of_ne different ..

/-- A merge of `files` has delivered `out`, and `left` is still to come. -/
inductive Merged (before : α → α → Prop) (files : ι → List α) : List (ι × α) → (ι → List α) → Prop
  | start : Merged before files [] files
  | take (out : List (ι × α)) (left : ι → List α) (i : ι) (item : α) (rest : List α)
      (merged : Merged before files out left) (head : left i = item :: rest)
      (least : ∀ j other, (left j).head? = some other → ¬ before other item) :
      Merged before files (out ++ [(i,item)]) (Function.update left i rest)

variable {before : α → α → Prop} {files left : ι → List α} {out : List (ι × α)}

/-- What has been delivered of one sequence. -/
def delivered (out : List (ι × α)) (j : ι) : List α := (out.filter (·.1 = j)).map Prod.snd

theorem delivered_snoc (out : List (ι × α)) (i j : ι) (item : α) :
    delivered (out ++ [(i,item)]) j = delivered out j ++ if i = j then [item] else [] := by
  by_cases same : i = j <;> simp [delivered,same]

/-- No item is lost, invented or moved past another one of its sequence. -/
theorem Merged.split (merged : Merged before files out left) (j : ι) : delivered out j ++ left j = files j := by
  induction merged with
  | start => rfl
  | take out left i item rest merged head least ih =>
    rw [delivered_snoc]
    by_cases same : i = j
    · subst same
      rw [if_pos rfl,Function.update_self,List.append_assoc,List.singleton_append,← head]
      exact ih
    · rw [if_neg same,Function.update_of_ne (Ne.symm same),List.append_nil]
      exact ih

/-- Items may arrive behind a known head. -/
theorem Merged.arrive (merged : Merged before files out left) (i : ι) (more : List α) (known : left i ≠ []) :
    Merged before (extend files i more) out (extend left i more) := by
  induction merged with
  | start => exact .start
  | take out left j item rest merged head least ih =>
    -- The head of `i` was known before this item was taken as well.
    have earlier : left i ≠ [] := by
      by_cases same : i = j
      · rw [same,head]
        exact List.cons_ne_nil item rest
      · rwa [Function.update_of_ne same] at known
    have step : extend (Function.update left j rest) i more =
        Function.update (extend left i more) j (if j = i then rest ++ more else rest) := by
      funext l
      by_cases here : l = i
      · subst here
        by_cases same : j = l
        · subst same
          simp
        · rw [extend_self,Function.update_of_ne (Ne.symm same),Function.update_of_ne (Ne.symm same),extend_self]
      · rw [extend_of_ne _ _ here]
        by_cases same : l = j
        · subst same
          rw [Function.update_self,Function.update_self,if_neg here]
        · rw [Function.update_of_ne same,Function.update_of_ne same,extend_of_ne _ _ here]
    rw [step]
    refine .take out (extend left i more) j item _ (ih earlier) ?_ ?_
    · by_cases same : j = i
      · subst same
        rw [extend_self,head,if_pos rfl,List.cons_append]
      · rw [extend_of_ne _ _ same,head,if_neg same]
    · intro l other shown
      by_cases here : l = i
      · subst here
        rw [extend_self,List.head?_append_of_ne_nil _ earlier] at shown
        exact least l other shown
      · rw [extend_of_ne _ _ here] at shown
        exact least l other shown

/-- A round of a merge that knows one head of each sequence: the head of `i` is
taken, then the next item of `i` arrives, or there is none. -/
theorem Merged.round (merged : Merged before files out left) (i : ι) (item : α) (head : left i = [item])
    (least : ∀ j other, (left j).head? = some other → ¬ before other item) (more : List α) :
    Merged before (extend files i more) (out ++ [(i,item)]) (Function.update left i more) := by
  have known : left i ≠ [] := by rw [head]; exact List.cons_ne_nil item []
  have grown : extend left i more i = item :: more := by rw [extend_self,head,List.singleton_append]
  have taken := (merged.arrive i more known).take out _ i item more grown fun j other shown => by
    by_cases here : j = i
    · subst here
      rw [extend_self,List.head?_append_of_ne_nil _ known] at shown
      exact least j other shown
    · rw [extend_of_ne _ _ here] at shown
      exact least j other shown
  have after : Function.update (extend left i more) i more = Function.update left i more := by
    rw [extend,Function.update_idem]
  rwa [after] at taken

/-- When there are `k` sequences their items are what has been delivered and what is left. -/
theorem Merged.perm {files left : Nat → List α} {out : List (Nat × α)} (merged : Merged before files out left) (k : Nat)
    (outside : ∀ j, k ≤ j → files j = []) :
    ((List.range k).flatMap files).Perm (out.map Prod.snd ++ (List.range k).flatMap left) := by
  induction merged with
  | start => exact List.Perm.refl _
  | take out left i item rest merged head least ih =>
    have bound : i < k := by
      by_contra beyond
      have whole := merged.split i
      rw [outside i (Nat.le_of_not_lt beyond),head] at whole
      simp at whole
    rw [List.map_append,List.append_assoc,List.map_singleton,List.singleton_append]
    exact ih.trans ((Selection.flatMap_range_pop k i bound left item rest head).append_left _)

section Ordered
variable {le : α → α → Prop}

/-- Sequences in order are merged in order. -/
theorem Merged.ordered (merged : Merged before files out left) (trans : ∀ a b c, le a b → le b c → le a c)
    (total : ∀ a b, ¬ before b a → le a b) (ascending : ∀ j, (files j).Pairwise le) :
    (out.map Prod.snd).Pairwise le ∧ (∀ a ∈ out, ∀ j, ∀ b ∈ left j, le a.2 b) ∧ ∀ j, (left j).Pairwise le := by
  induction merged with
  | start => exact ⟨List.Pairwise.nil,by simp,ascending⟩
  | take out left i item rest merged head least ih =>
    obtain ⟨sorted,ahead,lasting⟩ := ih
    have own := List.pairwise_cons.mp (head ▸ lasting i)
    have first : ∀ j, ∀ b ∈ left j, le item b := by
      intro j b member
      obtain ⟨other,others,shape⟩ := List.exists_cons_of_ne_nil (List.ne_nil_of_mem member)
      have below := total item other (least j other (by rw [shape]; rfl))
      rw [shape] at member
      rcases List.mem_cons.mp member with rfl | later
      · exact below
      · exact trans _ _ _ below ((List.pairwise_cons.mp (shape ▸ lasting j)).1 b later)
    have fewer : ∀ j, ∀ b ∈ Function.update left i rest j, b ∈ left j := by
      intro j b member
      by_cases same : j = i
      · subst same
        rw [Function.update_self] at member
        rw [head]
        exact List.mem_cons_of_mem item member
      · rwa [Function.update_of_ne same] at member
    refine ⟨?_,?_,?_⟩
    · rw [List.map_append,List.map_singleton]
      refine List.pairwise_append.mpr ⟨sorted,List.pairwise_singleton _ _,?_⟩
      intro a member b last
      rw [List.mem_singleton.mp last]
      obtain ⟨pair,inside,rfl⟩ := List.mem_map.mp member
      exact ahead pair inside i item (by rw [head]; exact List.mem_cons_self)
    · intro a member j b behind
      rcases List.mem_append.mp member with old | new
      · exact ahead a old j b (fewer j b behind)
      · rw [List.mem_singleton.mp new]
        exact first j b (fewer j b behind)
    · intro j
      by_cases same : j = i
      · rw [same,Function.update_self]
        exact own.2
      · rw [Function.update_of_ne same]
        exact lasting j

end Ordered
end Library.Interleaving
