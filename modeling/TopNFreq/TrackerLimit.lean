import TopNFreq.MemPool
import TopNFreq.Library.History

/-! The limit check of `MemTracker` against the exact sum of the amounts that are
outstanding. The tracker keeps that sum modulo 2^64, and `TryConsume` compares a
sum that may wrap around with the limit. -/
namespace TopNFreq
open Library.History

inductive TrackerCall
  | tryConsume (size : UInt64)
  | consume (size : UInt64)
  | release (size : UInt64)
deriving DecidableEq

/-- A tracker and the exact sum of the amounts that are outstanding. -/
structure Outstanding where
  mem_tracker_ : MemTracker
  amount : Nat

namespace Outstanding

def start (max_size : UInt64) : Outstanding := ⟨MemTracker.new max_size,0⟩

def call (s : Outstanding) : TrackerCall → Outstanding
  | .tryConsume size =>
    ⟨(s.mem_tracker_.TryConsume size).2,
      if (s.mem_tracker_.TryConsume size).1 then s.amount + size.toNat else s.amount⟩
  | .consume size => ⟨s.mem_tracker_.Consume size,s.amount + size.toNat⟩
  | .release size => ⟨s.mem_tracker_.Release size,s.amount - size.toNat⟩

/-- `Release` gives back what is consumed, and `Consume` keeps the sum below 2^64. -/
def Legal (s : Outstanding) : TrackerCall → Prop
  | .tryConsume _ => True
  | .consume size => s.amount + size.toNat < 2^64
  | .release size => size.toNat ≤ s.amount

/-- The answer of `TryConsume` is that of the exact sum. -/
def Right (s : Outstanding) : TrackerCall → Prop
  | .tryConsume size => (s.mem_tracker_.TryConsume size).1 = true ↔
      s.amount + size.toNat ≤ s.mem_tracker_.max_size_.toNat
  | _ => True

/-- The sum does not wrap around, or what is left of it is over the limit as well. -/
def Fits (s : Outstanding) : TrackerCall → Prop
  | .tryConsume size => s.amount + size.toNat < 2^64 ∨
      s.mem_tracker_.max_size_.toNat < (s.amount + size.toNat) % 2^64
  | _ => True

instance (s : Outstanding) : (op : TrackerCall) → Decidable (Legal s op)
  | .tryConsume _ => isTrue trivial
  | .consume _ => inferInstanceAs (Decidable (_ < _))
  | .release _ => inferInstanceAs (Decidable (_ ≤ _))

instance (s : Outstanding) : (op : TrackerCall) → Decidable (Fits s op)
  | .tryConsume _ => inferInstanceAs (Decidable (_ ∨ _))
  | .consume _ => isTrue trivial
  | .release _ => isTrue trivial

structure Tracks (max_size : UInt64) (s : Outstanding) : Prop where
  limit : s.mem_tracker_.max_size_ = max_size
  counts : s.mem_tracker_.current_size_ = UInt64.ofNat s.amount

theorem Tracks.try_iff {max_size : UInt64} {s : Outstanding} (tracks : Tracks max_size s) (size : UInt64) :
    (s.mem_tracker_.TryConsume size).1 = true ↔ (s.amount + size.toNat) % 2^64 ≤ max_size.toNat := by
  simp only [MemTracker.TryConsume,gt_iff_lt,tracks.limit,tracks.counts,ofNat_add_size,UInt64.lt_iff_toNat_lt,
    UInt64.toNat_ofNat']
  split
  · rename_i beyond
    exact iff_of_false Bool.false_ne_true (Nat.not_le_of_lt beyond)
  · rename_i within
    exact iff_of_true rfl (Nat.le_of_not_lt within)

theorem Tracks.call {max_size : UInt64} (s : Outstanding) (op : TrackerCall) (tracks : Tracks max_size s)
    (legal : Legal s op) : Tracks max_size (s.call op) := by
  cases op with
  | tryConsume size =>
    simp only [Outstanding.call]
    cases granted : (s.mem_tracker_.TryConsume size).1 with
    | false => exact ⟨by rw [TryConsume_refused size granted,tracks.limit],
        by rw [TryConsume_refused size granted,tracks.counts]; rfl⟩
    | true => exact ⟨by rw [TryConsume_granted size granted]; exact tracks.limit,
        by rw [TryConsume_granted size granted]; exact Consume_counts size tracks.counts⟩
  | consume size => exact ⟨tracks.limit,Consume_counts size tracks.counts⟩
  | release size =>
    refine ⟨tracks.limit,Release_counts size ?_⟩
    rw [tracks.counts]
    exact congrArg UInt64.ofNat (Nat.sub_add_cancel legal).symm

/-- A call is answered right just when the sum that is compared is the exact one,
or both are over the limit. -/
theorem Tracks.right_iff {max_size : UInt64} (s : Outstanding) (op : TrackerCall) (tracks : Tracks max_size s) :
    Right s op ↔ Fits s op := by
  cases op with
  | tryConsume size =>
    have limit := max_size.toNat_lt
    simp only [Right,Fits,tracks.try_iff,tracks.limit]
    omega
  | consume size => exact Iff.rfl
  | release size => exact Iff.rfl

theorem Tracks.within {max_size : UInt64} (s : Outstanding) (op : TrackerCall) (tracks : Tracks max_size s)
    (right : Right s op) (unforced : ∀ size, op ≠ .consume size) (within : s.amount ≤ max_size.toNat) :
    (s.call op).amount ≤ max_size.toNat := by
  cases op with
  | tryConsume size =>
    simp only [Right,tracks.limit] at right
    simp only [Outstanding.call]
    split
    · exact right.mp ‹_›
    · exact within
  | consume size => exact absurd rfl (unforced size)
  | release size => exact (Nat.sub_le ..).trans within

end Outstanding

open Outstanding

/-- The limit check is exact in the runs in which no sum wraps around to a value
within the limit; then `TryConsume` and `Release` alone keep the limit. -/
theorem limit_check_exact (max_size : UInt64) (calls : List TrackerCall)
    (legal : Along Outstanding.call Legal (start max_size) calls) :
    (Along Outstanding.call Right (start max_size) calls ∧
      ((∀ size, .consume size ∉ calls) → ∀ before after, calls = before ++ after →
        (run Outstanding.call (start max_size) before).amount ≤ max_size.toNat)) ↔
    Along Outstanding.call Fits (start max_size) calls := by
  have same : Along Outstanding.call Right (start max_size) calls ↔
      Along Outstanding.call Fits (start max_size) calls :=
    along_congr (Tracks max_size) Tracks.call (fun s op tracks _ => Tracks.right_iff s op tracks)
      (start max_size) ⟨rfl,rfl⟩ calls legal
  rw [← same,and_iff_left_iff_imp]
  rintro right unforced before after rfl
  have plain : Along Outstanding.call (fun _ op => ∀ size, op ≠ .consume size) (start max_size) before :=
    along_of_forall _ _ fun op member size forced =>
      unforced size (List.mem_append_left _ (forced ▸ member))
  have all := ((along_append.mp legal).1.and (along_append.mp right).1).and plain
  refine (run_invariant (fun s => Tracks max_size s ∧ s.amount ≤ max_size.toNat) ?_ _ ?_ _ all).2
  · rintro s op ⟨tracks,within⟩ ⟨⟨legal,right⟩,unforced⟩
    exact ⟨tracks.call s op legal,tracks.within s op right unforced within⟩
  · exact ⟨⟨rfl,rfl⟩,Nat.zero_le _⟩

/-- After 100 of 150 bytes a request of 2^64 - 50 bytes is granted. -/
theorem limit_check_wraps :
    Along Outstanding.call Legal (start 150) [.tryConsume 100,.tryConsume 18446744073709551566] ∧
    ((run Outstanding.call (start 150) [.tryConsume 100]).mem_tracker_.TryConsume 18446744073709551566).1 = true ∧
    ¬ (run Outstanding.call (start 150) [.tryConsume 100]).amount + (18446744073709551566 : UInt64).toNat ≤
      (150 : UInt64).toNat :=
  ⟨by decide,by decide,by decide⟩

/-- `Consume` may exceed the limit of 100 bytes, and then nothing is granted until enough is released. -/
theorem limit_check_exact_four :
    Along Outstanding.call Right (start 100) [.consume 101,.tryConsume 1,.release 2,.tryConsume 1] ∧
      ((∀ size, .consume size ∉ [TrackerCall.consume 101,.tryConsume 1,.release 2,.tryConsume 1]) →
        ∀ before after, [.consume 101,.tryConsume 1,.release 2,.tryConsume 1] = before ++ after →
        (run Outstanding.call (start 100) before).amount ≤ (100 : UInt64).toNat) :=
  (limit_check_exact 100 [.consume 101,.tryConsume 1,.release 2,.tryConsume 1] (by decide)).mpr (by decide)

end TopNFreq
