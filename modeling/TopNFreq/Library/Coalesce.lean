import Mathlib.Algebra.BigOperators.Group.List.Basic
import Mathlib.Algebra.Order.BigOperators.Group.List
import Mathlib.Algebra.Order.Ring.Int
import Mathlib.Data.List.Induction
import Mathlib.Data.List.Pairwise
import Mathlib.Data.List.Perm.Basic
import Mathlib.Order.Basic

/-! Joining adjacent equal keys of a weighted sequence, one element at a time.
On a sequence whose keys never descend the groups formed this way are all the
groups there are, and each carries the whole weight of its key. -/
namespace Library.Coalesce

universe u v
variable {κ : Type u} {μ : Type v} [LinearOrder κ] [AddCommMonoid μ]

def weight (key : κ) (items : List (κ × μ)) : μ :=
  ((items.filter (fun p => p.1 = key)).map Prod.snd).sum

@[simp] theorem weight_nil (key : κ) : weight key ([] : List (κ × μ)) = 0 := rfl

theorem weight_cons (key : κ) (p : κ × μ) (items : List (κ × μ)) :
    weight key (p :: items) = (if p.1 = key then p.2 else 0) + weight key items := by
  by_cases same : p.1 = key <;> simp [weight,same]

theorem weight_append (key : κ) (first second : List (κ × μ)) :
    weight key (first ++ second) = weight key first + weight key second := by
  simp [weight]

theorem weight_perm (key : κ) (first second : List (κ × μ)) (same : first.Perm second) :
    weight key first = weight key second :=
  ((same.filter _).map _).sum_eq

theorem weight_absent (key : κ) (items : List (κ × μ)) (absent : ∀ p ∈ items, p.1 ≠ key) :
    weight key items = 0 := by
  have none : items.filter (fun p => p.1 = key) = [] := by
    simpa [List.filter_eq_nil_iff] using absent
  simp [weight,none]

theorem weight_of_mem (items : List (κ × μ)) (distinct : (items.map Prod.fst).Nodup) (p : κ × μ)
    (member : p ∈ items) : weight p.1 items = p.2 := by
  induction items with
  | nil => simp at member
  | cons q items ih =>
    obtain ⟨fresh,rest⟩ := List.nodup_cons.mp distinct
    rw [weight_cons]
    rcases List.mem_cons.mp member with rfl | later
    · have apart : ∀ r ∈ items, r.1 ≠ p.1 := fun r inside same => fresh (same ▸ List.mem_map_of_mem inside)
      rw [if_pos rfl,weight_absent p.1 items apart,add_zero]
    · have apart : q.1 ≠ p.1 := fun same => fresh (same ▸ List.mem_map_of_mem later)
      rw [if_neg apart,zero_add]
      exact ih rest later

theorem weight_pos {key : κ} {items : List (κ × Int)} (positives : ∀ p ∈ items, 0 < p.2)
    (present : key ∈ items.map Prod.fst) : 0 < weight key items := by
  obtain ⟨p,member,rfl⟩ := List.mem_map.mp present
  refine List.sum_pos _ ?_ ?_
  · intro total inside
    obtain ⟨q,kept,rfl⟩ := List.mem_map.mp inside
    exact positives q (List.mem_filter.mp kept).1
  · exact List.ne_nil_of_mem (List.mem_map_of_mem (List.mem_filter.mpr ⟨member,by simp⟩))

theorem weight_part_le {key : κ} {items part rest : List (κ × Int)} (positives : ∀ p ∈ items, 0 < p.2)
    (same : items.Perm (part ++ rest)) : weight key part ≤ weight key items := by
  have nonnegative : 0 ≤ weight key rest := by
    refine List.sum_nonneg fun total inside => ?_
    obtain ⟨q,kept,rfl⟩ := List.mem_map.mp inside
    exact (positives q (same.mem_iff.mpr (List.mem_append_right _ (List.mem_filter.mp kept).1))).le
  rw [weight_perm key _ _ same,weight_append]
  exact Int.le_add_of_nonneg_right nonnegative

theorem weight_ones [BEq κ] [LawfulBEq κ] (key : κ) (keys : List κ) :
    weight key (keys.map fun k => (k,(1 : Int))) = keys.count key := by
  induction keys with
  | nil => rfl
  | cons k keys ih =>
    simp only [List.map_cons,weight_cons,ih,List.count_cons,beq_iff_eq]
    split <;> push_cast <;> omega

/-- The groups that are complete, and the one still open. -/
structure Groups (κ : Type u) (μ : Type v) where
  closed : List (κ × μ)
  current : Option (κ × μ)

def Groups.empty : Groups κ μ := ⟨[],none⟩

def Groups.all (groups : Groups κ μ) : List (κ × μ) := groups.closed ++ groups.current.toList

/-- Take one element: join it to the open group or close that and open its own. -/
def absorb (groups : Groups κ μ) (item : κ × μ) : Groups κ μ :=
  match groups.current with
  | none => ⟨groups.closed,some item⟩
  | some (key,total) =>
    if key = item.1 then ⟨groups.closed,some (key,total + item.2)⟩
    else ⟨groups.closed ++ [(key,total)],some item⟩

def coalesce (items : List (κ × μ)) : Groups κ μ := items.foldl absorb Groups.empty

@[simp] theorem coalesce_nil : coalesce ([] : List (κ × μ)) = Groups.empty := rfl

theorem coalesce_snoc (items : List (κ × μ)) (item : κ × μ) :
    coalesce (items ++ [item]) = absorb (coalesce items) item := by
  simp [coalesce]

/-- What the groups of a sequence with never descending keys are. -/
structure Grouped (items : List (κ × μ)) (groups : Groups κ μ) : Prop where
  ascending : (groups.all.map Prod.fst).Pairwise (· < ·)
  weights : ∀ p ∈ groups.all, p.2 = weight p.1 items
  complete : ∀ p ∈ items, p.1 ∈ groups.all.map Prod.fst
  sound : ∀ p ∈ groups.all, p.1 ∈ items.map Prod.fst
  opened : groups.current = none → items = []

theorem grouped_empty : Grouped ([] : List (κ × μ)) Groups.empty :=
  ⟨List.Pairwise.nil,by simp [Groups.all,Groups.empty],by simp,by simp [Groups.all,Groups.empty],fun _ => rfl⟩

section Absorbing
variable {items closed : List (κ × μ)} {key : κ} {total : μ}

private theorem open_last (grouped : Grouped items ⟨closed,some (key,total)⟩) :
    ∀ p ∈ closed, p.1 < key := by
  have ascending := grouped.ascending
  simp only [Groups.all,Option.toList_some,List.map_append,List.map_cons,List.map_nil,
    List.pairwise_append] at ascending
  intro p member
  exact ascending.2.2 p.1 (List.mem_map_of_mem member) key (by simp)

private theorem below_all (grouped : Grouped items ⟨closed,some (key,total)⟩) {next : κ} (later : key < next) :
    ∀ k ∈ (closed ++ [(key,total)]).map Prod.fst, k < next := by
  intro k member
  rw [List.map_append] at member
  rcases List.mem_append.mp member with inside | equal
  · obtain ⟨p,memberClosed,rfl⟩ := List.mem_map.mp inside
    exact (open_last grouped p memberClosed).trans later
  · exact List.mem_singleton.mp equal ▸ later

private theorem Grouped.join (grouped : Grouped items ⟨closed,some (key,total)⟩) (more : μ) :
    Grouped (items ++ [(key,more)]) ⟨closed,some (key,total + more)⟩ := by
  refine ⟨by simpa [Groups.all] using grouped.ascending,?_,?_,?_,by simp⟩
  · intro p member
    rw [weight_append,weight_cons,weight_nil,add_zero]
    simp only [Groups.all,Option.toList_some,List.mem_append,List.mem_singleton] at member
    rcases member with inside | rfl
    · have different : key ≠ p.1 := (open_last grouped p inside).ne'
      simp [different,grouped.weights p (by simp [Groups.all,inside])]
    · have before : total = weight key items := grouped.weights (key,total) (by simp [Groups.all])
      rw [if_pos rfl,before]
  · intro p member
    rcases List.mem_append.mp member with old | new
    · simpa [Groups.all] using grouped.complete p old
    · simp [Groups.all,List.mem_singleton.mp new]
  · intro p member
    simp only [Groups.all,Option.toList_some,List.mem_append,List.mem_singleton] at member
    rcases member with inside | rfl
    · have old := grouped.sound p (by simp [Groups.all,inside])
      rw [List.map_append]
      exact List.mem_append_left _ old
    · simp

private theorem Grouped.close (grouped : Grouped items ⟨closed,some (key,total)⟩) (item : κ × μ)
    (later : key < item.1) : Grouped (items ++ [item]) ⟨closed ++ [(key,total)],some item⟩ := by
  have below := below_all grouped later
  have fresh : ∀ p ∈ items, p.1 ≠ item.1 := fun p member => (below p.1 (grouped.complete p member)).ne
  refine ⟨?_,?_,?_,?_,by simp⟩
  · rw [Groups.all,List.map_append]
    refine List.pairwise_append.mpr ⟨grouped.ascending,List.pairwise_singleton _ _,?_⟩
    intro a memberA b memberB
    rw [List.mem_singleton.mp memberB]
    exact below a memberA
  · intro p member
    rw [weight_append,weight_cons,weight_nil,add_zero]
    rcases List.mem_append.mp member with old | new
    · have different : item.1 ≠ p.1 := (below p.1 (List.mem_map_of_mem old)).ne'
      rw [if_neg different,add_zero]
      exact grouped.weights p old
    · rw [Option.toList_some,List.mem_singleton] at new
      rw [new,if_pos rfl,weight_absent item.1 items fresh,zero_add]
  · intro p member
    rw [Groups.all,List.map_append]
    rcases List.mem_append.mp member with old | new
    · exact List.mem_append_left _ (grouped.complete p old)
    · simp [List.mem_singleton.mp new]
  · intro p member
    rw [List.map_append]
    rcases List.mem_append.mp member with old | new
    · exact List.mem_append_left _ (grouped.sound p old)
    · simp [List.mem_singleton.mp new]

end Absorbing

/-- Absorbing the next element of a sequence that is sorted by key keeps the
groups exact. -/
theorem Grouped.absorb {items : List (κ × μ)} {groups : Groups κ μ} (grouped : Grouped items groups)
    (item : κ × μ) (last : ∀ p ∈ items, p.1 ≤ item.1) :
    Grouped (items ++ [item]) (Coalesce.absorb groups item) := by
  obtain ⟨closed,current⟩ := groups
  cases current with
  | none =>
    have none : items = [] := grouped.opened rfl
    subst none
    have empty : closed = [] := by
      apply List.eq_nil_iff_forall_not_mem.mpr
      intro p member
      simpa using grouped.sound p (by simp [Groups.all,member])
    subst empty
    constructor <;> simp [Coalesce.absorb,Groups.all,weight_cons]
  | some opened =>
    obtain ⟨key,total⟩ := opened
    have keyLe : key ≤ item.1 := by
      obtain ⟨p,member,rfl⟩ := List.mem_map.mp (grouped.sound (key,total) (by simp [Groups.all]))
      exact last p member
    by_cases same : key = item.1
    · simp only [Coalesce.absorb,if_pos same]
      subst same
      exact grouped.join item.2
    · simp only [Coalesce.absorb,if_neg same]
      exact grouped.close item (lt_of_le_of_ne keyLe same)

theorem grouped_coalesce (items : List (κ × μ)) (sorted : (items.map Prod.fst).Pairwise (· ≤ ·)) :
    Grouped items (coalesce items) := by
  induction items using List.reverseRecOn with
  | nil => exact grouped_empty
  | append_singleton items item ih =>
    rw [List.map_append,List.pairwise_append] at sorted
    rw [coalesce_snoc]
    refine (ih sorted.1).absorb item ?_
    intro p member
    exact sorted.2.2 p.1 (List.mem_map_of_mem member) item.1 (by simp)

theorem Grouped.perm {items : List (κ × μ)} {groups : Groups κ μ} (grouped : Grouped items groups)
    (keys : List κ) (distinct : keys.Nodup) (same : ∀ key, key ∈ keys ↔ key ∈ items.map Prod.fst) :
    groups.all.Perm (keys.map fun key => (key,weight key items)) := by
  have fromGroups : groups.all = (groups.all.map Prod.fst).map fun key => (key,weight key items) := by
    rw [List.map_map]
    nth_rewrite 1 [← List.map_id groups.all]
    exact List.map_congr_left fun p member => Prod.ext rfl (grouped.weights p member)
  rw [fromGroups]
  refine List.Perm.map _ ((List.perm_ext_iff_of_nodup (grouped.ascending.imp ne_of_lt) distinct).mpr fun key => ?_)
  rw [same]
  constructor
  · intro member
    obtain ⟨p,inside,rfl⟩ := List.mem_map.mp member
    exact grouped.sound p inside
  · intro member
    obtain ⟨p,inside,rfl⟩ := List.mem_map.mp member
    exact grouped.complete p inside

end Library.Coalesce
