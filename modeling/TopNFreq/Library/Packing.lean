import Mathlib.Algebra.BigOperators.Group.List.Basic
import Mathlib.Algebra.Order.BigOperators.Group.List
import Mathlib.Tactic.Ring

/-! Cutting a sequence of items into consecutive parts of limited load. A part is
closed when the next item does not fit; no other cutting has fewer parts. -/
namespace Library.Packing

section Packing
variable {α : Type} (size : α → Nat) (limit : Nat)

def load (items : List α) : Nat := (items.map size).sum

/-- The parts, when `part` is the one that is filled. -/
def pack (part : List α) : List α → List (List α)
  | [] => if part.isEmpty then [] else [part]
  | item :: items =>
    if limit < load size part + size item then part :: pack [item] items
    else pack (part ++ [item]) items

@[simp] theorem load_nil : load size [] = 0 := rfl

@[simp] theorem load_singleton (item : α) : load size [item] = size item := by
  rw [load,List.map_singleton,List.sum_singleton]

theorem load_append (first second : List α) : load size (first ++ second) = load size first + load size second := by
  rw [load,List.map_append,List.sum_append]
  rfl

theorem load_cons (item : α) (items : List α) : load size (item :: items) = size item + load size items := rfl

theorem load_flatten (parts : List (List α)) : load size parts.flatten = (parts.map (load size)).sum := by
  induction parts with
  | nil => rfl
  | cons part parts ih => rw [List.flatten_cons,load_append,ih,List.map_cons,List.sum_cons]

variable {size limit}

theorem pack_closes {part : List α} {item : α} (items : List α) (beyond : limit < load size part + size item) :
    pack size limit part (item :: items) = part :: pack size limit [item] items := if_pos beyond

theorem pack_takes {part : List α} {item : α} (items : List α) (fits : load size part + size item ≤ limit) :
    pack size limit part (item :: items) = pack size limit (part ++ [item]) items := if_neg fits.not_gt

theorem pack_flatten (part items : List α) : (pack size limit part items).flatten = part ++ items := by
  induction items generalizing part with
  | nil => cases part <;> simp [pack]
  | cons item items ih =>
    unfold pack
    split
    · rw [List.flatten_cons,ih]
      rfl
    · rw [ih,List.append_assoc]
      rfl

theorem pack_fits (part items : List α) (small : ∀ item ∈ items, size item ≤ limit) (fits : load size part ≤ limit) :
    ∀ other ∈ pack size limit part items, load size other ≤ limit := by
  induction items generalizing part with
  | nil =>
    intro other member
    cases part with
    | nil => cases member
    | cons => exact List.mem_singleton.mp member ▸ fits
  | cons item items ih =>
    have later := fun other among => small other (List.mem_cons_of_mem _ among)
    by_cases beyond : limit < load size part + size item
    · rw [pack_closes items beyond]
      intro other member
      rcases List.mem_cons.mp member with rfl | behind
      · exact fits
      · exact ih [item] later (by simpa using small item List.mem_cons_self) other behind
    · rw [pack_takes items (not_lt.mp beyond)]
      refine ih _ later ?_
      rw [load_append,load_singleton]
      exact not_lt.mp beyond

theorem pack_positive (part items : List α) (some : part ≠ []) : 1 ≤ (pack size limit part items).length := by
  induction items generalizing part with
  | nil =>
    cases part with
    | nil => exact absurd rfl some
    | cons => exact le_rfl
  | cons item items ih =>
    unfold pack
    split
    · exact Nat.le_add_left _ _
    · exact ih _ (by simp)

/-- Every part but the last is full up to less than the largest item. -/
theorem pack_full (most : Nat) (part items : List α) (small : ∀ item ∈ items, size item ≤ most) :
    ∀ other ∈ (pack size limit part items).dropLast, limit < load size other + most := by
  induction items generalizing part with
  | nil => cases part <;> simp [pack]
  | cons item items ih =>
    have later := fun other among => small other (List.mem_cons_of_mem _ among)
    by_cases beyond : limit < load size part + size item
    · have some := @pack_positive _ size limit [item] items (List.cons_ne_nil _ _)
      rw [pack_closes items beyond,List.dropLast_cons_of_ne_nil (List.ne_nil_of_length_pos some)]
      refine List.forall_mem_cons.mpr ⟨?_,ih [item] later⟩
      exact beyond.trans_le (Nat.add_le_add_left (small item List.mem_cons_self) _)
    · rw [pack_takes items (not_lt.mp beyond)]
      exact ih _ later

theorem pack_count (most : Nat) (part items : List α) (small : ∀ item ∈ items, size item ≤ most) :
    ((pack size limit part items).length - 1) * (limit + 1 - most) ≤ load size part + load size items := by
  have full := @pack_full _ size limit most part items small
  rw [← load_append,← @pack_flatten _ size limit part items,load_flatten,← List.length_dropLast]
  generalize pack size limit part items = parts at full ⊢
  have each := List.card_nsmul_le_sum (parts.dropLast.map (load size)) (limit + 1 - most) fun sum member => by
    obtain ⟨other,inside,rfl⟩ := List.mem_map.mp member
    have filled := full other inside
    omega
  rw [List.length_map,nsmul_eq_mul,Nat.cast_id] at each
  exact each.trans (((List.dropLast_sublist parts).map (load size)).sum_le_sum fun _ _ => Nat.zero_le _)

/-- Where a part with less load is filled there are no more parts, and one more at most
whatever the load is. -/
theorem pack_ahead (items first second : List α) :
    (load size first ≤ load size second → (second = [] → first = []) →
      (pack size limit first items).length ≤ (pack size limit second items).length) ∧
    (pack size limit first items).length ≤ (pack size limit second items).length + 1 := by
  induction items generalizing first second with
  | nil =>
    have few (part : List α) : (pack size limit part []).length ≤ 1 := by cases part <;> simp [pack]
    refine ⟨fun _ empty => ?_,(few first).trans (Nat.le_add_left _ _)⟩
    cases second with
    | nil => rw [empty rfl]
    | cons => exact few first
  | cons item items ih =>
    by_cases closes : limit < load size first + size item
    · rw [pack_closes items closes,List.length_cons]
      by_cases also : limit < load size second + size item
      · rw [pack_closes items also,List.length_cons]
        exact ⟨fun _ _ => le_rfl,Nat.le_succ _⟩
      · refine ⟨fun less _ => absurd (closes.trans_le (Nat.add_le_add_right less _)) also,?_⟩
        rw [pack_takes items (not_lt.mp also)]
        refine Nat.succ_le_succ ((ih [item] (second ++ [item])).1 ?_ fun empty => by simp at empty)
        rw [load_append,load_singleton]
        exact Nat.le_add_left _ _
    · rw [pack_takes items (not_lt.mp closes)]
      by_cases also : limit < load size second + size item
      · rw [pack_closes items also,List.length_cons]
        have near := (ih (first ++ [item]) [item]).2
        exact ⟨fun _ _ => near,near.trans (Nat.le_succ _)⟩
      · rw [pack_takes items (not_lt.mp also)]
        refine ⟨fun less _ => (ih _ _).1 ?_ (by simp),(ih _ _).2⟩
        rw [load_append,load_append]
        exact Nat.add_le_add_right less _

theorem pack_append (part others items : List α) (fits : load size part + load size others ≤ limit) :
    pack size limit part (others ++ items) = pack size limit (part ++ others) items := by
  induction others generalizing part with
  | nil => rw [List.nil_append,List.append_nil]
  | cons item others ih =>
    rw [load_cons] at fits
    rw [List.cons_append,pack_takes _ (by omega),ih _ (by rw [load_append,load_singleton]; omega),List.append_assoc]
    rfl

/-- No other way to cut the items into parts of limited load has fewer parts. -/
theorem pack_fewest (parts : List (List α)) (fits : ∀ part ∈ parts, load size part ≤ limit) :
    (pack size limit [] parts.flatten).length ≤ parts.length := by
  induction parts with
  | nil => exact le_rfl
  | cons part parts ih =>
    have first := fits part List.mem_cons_self
    rw [List.flatten_cons,pack_append [] part _ (by rwa [load_nil,Nat.zero_add]),List.nil_append,List.length_cons]
    exact ((pack_ahead parts.flatten part []).2).trans
      (Nat.succ_le_succ (ih fun other among => fits other (List.mem_cons_of_mem _ among)))

end Packing
end Library.Packing
