import TopNFreq.FileManager
import Mathlib.Data.List.TakeWhile

/-! What `ReadLine` returns: the delimiters in front are skipped, the bytes up to
the next delimiter or the limit are returned and one byte behind them is dropped. -/
namespace TopNFreq
open Library.Text Library.InputStream Library.Loop IStream

namespace FileManager

/-- The bytes taken from a text that starts with no delimiter. -/
def line (max_len : Nat) (delimiter : Byte) (text : Bytes) : Bytes :=
  (text.takeWhile (· ≠ delimiter)).take (max_len - 1)

/-- The next line of a text and what remains behind it. -/
def nextLine (max_len : Nat) (delimiter : Byte) (text : Bytes) : Option (Bytes × Bytes) :=
  match text.dropWhile (· = delimiter) with
  | [] => none
  | c :: tail =>
    let buffer := line max_len delimiter (c :: tail)
    some (buffer,(c :: tail).drop (buffer.length + 1))

theorem line_ne_nil (max_len : Nat) (delimiter c : Byte) (tail : Bytes) (room : 2 ≤ max_len)
    (different : c ≠ delimiter) : line max_len delimiter (c :: tail) ≠ [] := by
  obtain ⟨k,rfl⟩ := Nat.exists_eq_add_of_le' room
  simp [line,different]

theorem line_length (max_len : Nat) (delimiter : Byte) (text : Bytes) :
    (line max_len delimiter text).length ≤ max_len - 1 ∧
      (line max_len delimiter text).length ≤ text.length := by
  have short := (List.takeWhile_prefix (fun b => decide (b ≠ delimiter)) (l := text)).length_le
  simp only [line,List.length_take]
  omega

theorem line_clean (max_len : Nat) (delimiter : Byte) (text : Bytes) :
    delimiter ∉ line max_len delimiter text := by
  intro member
  have inside := List.mem_of_mem_take member
  simpa using List.mem_takeWhile_imp inside

theorem line_prefix (max_len : Nat) (delimiter : Byte) (text : Bytes) :
    line max_len delimiter text = text.take (line max_len delimiter text).length :=
  List.prefix_iff_eq_take.mp ((List.take_prefix _ _).trans (List.takeWhile_prefix _))

theorem dropWhile_head {delimiter c : Byte} {text tail : Bytes}
    (rest : text.dropWhile (· = delimiter) = c :: tail) : c ≠ delimiter := by
  have head := List.head?_dropWhile_not (fun b => decide (b = delimiter)) text
  rw [rest] at head
  simpa using head

private theorem dropWhile_length (delimiter : Byte) (text : Bytes) :
    (text.dropWhile (· = delimiter)).length ≤ text.length :=
  (List.dropWhile_suffix _).length_le

private theorem skip_after_le (delimiter : Byte) (s next : Scan) (again : skipDelimiter delimiter s = some next) :
    next.in_.after.length ≤ s.in_.after.length := by
  have kept := get_after_le s.in_
  unfold skipDelimiter at again
  split at again
  · split at again <;> simp_all only [Option.some.injEq] <;> exact again ▸ kept
  · cases again

private theorem skip_nil (delimiter : Byte) (after : Bytes) (before : Bytes) (broken : Bool) (fuel : Nat)
    (enough : after.length < fuel) (rest : after.dropWhile (· = delimiter) = []) :
    (loop (skipDelimiter delimiter) fuel ⟨ready before after broken,delimiter,true⟩).c = delimiter ∧
      (loop (skipDelimiter delimiter) fuel ⟨ready before after broken,delimiter,true⟩).in_.good = false ∧
      (loop (skipDelimiter delimiter) fuel ⟨ready before after broken,delimiter,true⟩).in_.broken = broken := by
  induction after generalizing before fuel with
  | nil =>
    obtain ⟨fuel,rfl⟩ := Nat.exists_eq_add_of_le' (Nat.one_le_of_lt enough)
    rw [loop_next _ _ _ ⟨{(ready before [] broken).atEnd with failbit := true},delimiter,false⟩
      (by simp [skipDelimiter]),loop_stopped _ _ _ (by simp [skipDelimiter])]
    cases broken <;> simp [atEnd,good]
  | cons b tail ih =>
    simp only [List.length_cons] at enough
    obtain ⟨fuel,rfl⟩ := Nat.exists_eq_add_of_le' (by omega : 1 ≤ fuel)
    have isDelimiter : b = delimiter := by
      by_contra different
      simp [different] at rest
    subst isDelimiter
    rw [loop_next _ _ _ ⟨ready (b :: before) tail broken,b,true⟩ (by simp [skipDelimiter])]
    exact ih (b :: before) fuel (by omega) (by simpa using rest)

private theorem skip_cons (delimiter : Byte) (after : Bytes) (before : Bytes) (broken : Bool) (fuel : Nat)
    (enough : after.length < fuel) (c : Byte) (tail : Bytes)
    (rest : after.dropWhile (· = delimiter) = c :: tail) :
    ∃ skipped, loop (skipDelimiter delimiter) fuel ⟨ready before after broken,delimiter,true⟩ =
      ⟨ready (c :: skipped) tail broken,c,true⟩ := by
  induction after generalizing before fuel with
  | nil => simp at rest
  | cons b text ih =>
    simp only [List.length_cons] at enough
    obtain ⟨fuel,rfl⟩ := Nat.exists_eq_add_of_le' (by omega : 1 ≤ fuel)
    rw [loop_next _ _ _ ⟨ready (b :: before) text broken,b,true⟩ (by simp [skipDelimiter])]
    by_cases isDelimiter : b = delimiter
    · subst isDelimiter
      exact ih (b :: before) fuel (by omega) (by simpa using rest)
    · have first : b :: text = c :: tail := by simpa [List.dropWhile_cons,isDelimiter] using rest
      obtain ⟨rfl,rfl⟩ := List.cons.inj first
      exact ⟨before,loop_stopped _ _ _ (by simp [skipDelimiter,isDelimiter])⟩

private theorem skip_dead (in_ : IStream) (delimiter : Byte) (dead : in_.good = false) :
    loop (skipDelimiter delimiter) (in_.after.length + 1) ⟨in_,delimiter,true⟩ =
      ⟨{in_ with failbit := true},delimiter,false⟩ := by
  rw [loop_next _ _ _ ⟨{in_ with failbit := true},delimiter,false⟩ (by simp [skipDelimiter,get_dead _ dead]),
    loop_stopped _ _ _ (by simp [skipDelimiter])]

theorem ReadLine_dead (in_ : IStream) (max_len : Nat) (delimiter : Byte) (dead : in_.good = false) :
    ReadLine in_ max_len delimiter = ({in_ with failbit := true},none) := by
  simp only [ReadLine,skip_dead in_ delimiter dead,if_true]

/-- Where the skip loop stands when it ends. -/
def scanned (in_ : IStream) (delimiter : Byte) : Scan :=
  loop (skipDelimiter delimiter) (in_.after.length + 1) ⟨in_,delimiter,true⟩

theorem scanned_ended (in_ : IStream) (delimiter : Byte) : skipDelimiter delimiter (scanned in_ delimiter) = none := by
  apply loop_ends (skipDelimiter delimiter) (fun s => s.in_.after.length + if s.more then 1 else 0)
  · intro s next again
    unfold skipDelimiter at again
    split at again
    · rename_i going
      rw [going.2]
      split at again
      · rename_i left found
        have shorter : left.after.length ≤ s.in_.after.length := by simpa [found] using get_after_le s.in_
        cases again
        simp only [Bool.false_eq_true,if_false,if_true]
        omega
      · rename_i left c found
        have taken := (get_some s.in_ c (by rw [found])).1
        rw [found] at taken
        cases again
        rw [taken]
        simp
    · cases again
  · rfl

theorem ReadLine_nil (before after : Bytes) (broken : Bool) (max_len : Nat) (delimiter : Byte)
    (rest : after.dropWhile (· = delimiter) = []) :
    (ReadLine (ready before after broken) max_len delimiter).2 = none ∧
      (ReadLine (ready before after broken) max_len delimiter).1.good = false ∧
      (ReadLine (ready before after broken) max_len delimiter).1.broken = broken := by
  obtain ⟨same,dead,device⟩ := skip_nil delimiter after before broken (after.length + 1) (by omega) rest
  simp only [ReadLine,same,if_true,dead,device,true_and]

theorem ReadLine_line (before after : Bytes) (broken : Bool) (max_len : Nat) (delimiter : Byte)
    (c d : Byte) (tail more : Bytes) (room : 2 ≤ max_len)
    (rest : after.dropWhile (· = delimiter) = c :: tail)
    (behind : (c :: tail).drop (line max_len delimiter (c :: tail)).length = d :: more) :
    ∃ passed, ReadLine (ready before after broken) max_len delimiter =
      (ready passed more broken,some (line max_len delimiter (c :: tail))) := by
  have different := dropWhile_head rest
  obtain ⟨skipped,skip⟩ := skip_cons delimiter after before broken (after.length + 1) (by omega) c tail rest
  refine ⟨d :: (((c :: tail).take (line max_len delimiter (c :: tail)).length).reverse ++ skipped),?_⟩
  have taken := getUntil_ready skipped (c :: tail) broken max_len delimiter
    (line max_len delimiter (c :: tail)) (d :: more) rfl (line_ne_nil max_len delimiter c tail room different) behind
  rw [if_neg (List.cons_ne_nil d more)] at taken
  simp only [ReadLine,skip,if_neg different,seekBack_ready,taken]
  rfl

/-- The last line of a stream that ends without a delimiter: on a broken device
it is lost. -/
theorem ReadLine_last (before after : Bytes) (broken : Bool) (max_len : Nat) (delimiter : Byte)
    (c : Byte) (tail : Bytes) (room : 2 ≤ max_len)
    (rest : after.dropWhile (· = delimiter) = c :: tail)
    (behind : (c :: tail).drop (line max_len delimiter (c :: tail)).length = []) :
    (ReadLine (ready before after broken) max_len delimiter).2 =
        (if broken then none else some (line max_len delimiter (c :: tail))) ∧
      (ReadLine (ready before after broken) max_len delimiter).1.good = false ∧
      (ReadLine (ready before after broken) max_len delimiter).1.broken = broken ∧
      (ReadLine (ready before after broken) max_len delimiter).1.after = [] := by
  have different := dropWhile_head rest
  obtain ⟨skipped,skip⟩ := skip_cons delimiter after before broken (after.length + 1) (by omega) c tail rest
  have taken := getUntil_ready skipped (c :: tail) broken max_len delimiter
    (line max_len delimiter (c :: tail)) [] rfl (line_ne_nil max_len delimiter c tail room different) behind
  rw [if_pos rfl] at taken
  simp only [ReadLine,skip,if_neg different,seekBack_ready,taken]
  cases broken <;> simp [atEnd,fail,IStream.get,good]

/-- Where the `get` behind the skip loop fails, the stream is not at its end: `ReadLine` never
says on `cout` that it has finished. -/
theorem ReadLine_quiet (in_ : IStream) (max_len : Nat) (delimiter : Byte) (room : 2 ≤ max_len)
    (found : (scanned in_ delimiter).c ≠ delimiter)
    (failed : ((scanned in_ delimiter).in_.seekBack.getUntil max_len delimiter).1.fail = true) :
    ((scanned in_ delimiter).in_.seekBack.getUntil max_len delimiter).1.eofbit = false := by
  cases alive : in_.good with
  | false => exact absurd (congrArg Scan.c (skip_dead in_ delimiter alive)) found
  | true =>
    have whole := (good_iff in_).mp alive
    cases rest : in_.after.dropWhile (· = delimiter) with
    | nil =>
      have ended := (skip_nil delimiter in_.after in_.before in_.broken _ (Nat.lt_succ_self _) rest).1
      rw [← whole] at ended
      exact absurd ended found
    | cons c tail =>
      obtain ⟨skipped,skip⟩ := skip_cons delimiter in_.after in_.before in_.broken _ (Nat.lt_succ_self _) c tail rest
      rw [← whole] at skip
      have taken := getUntil_ready skipped (c :: tail) in_.broken max_len delimiter
        (line max_len delimiter (c :: tail)) _ rfl (line_ne_nil max_len delimiter c tail room (dropWhile_head rest)) rfl
      rw [scanned,skip,seekBack_ready,taken] at failed ⊢
      generalize (c :: tail).drop (line max_len delimiter (c :: tail)).length = behind at failed ⊢
      cases behind with
      | nil =>
        cases device : in_.broken with
        | false => simp [device,atEnd,fail] at failed
        | true => simp [atEnd]
      | cons d more => simp

/-- On a sound device `ReadLine` answers false only where the skip loop has met no
byte but delimiters. -/
theorem ReadLine_refused (in_ : IStream) (max_len : Nat) (delimiter : Byte) (room : 2 ≤ max_len)
    (sound : in_.broken = false) (refused : (ReadLine in_ max_len delimiter).2 = none) :
    (scanned in_ delimiter).c = delimiter := by
  cases alive : in_.good with
  | false => rw [scanned,skip_dead in_ delimiter alive]
  | true =>
    have whole := (good_iff in_).mp alive
    rw [sound] at whole
    rw [whole] at refused ⊢
    cases rest : in_.after.dropWhile (· = delimiter) with
    | nil => exact (skip_nil delimiter in_.after in_.before false _ (Nat.lt_succ_self _) rest).1
    | cons c tail =>
      cases behind : (c :: tail).drop (line max_len delimiter (c :: tail)).length with
      | nil =>
        rw [(ReadLine_last in_.before in_.after false max_len delimiter c tail room rest behind).1] at refused
        cases refused
      | cons d more =>
        obtain ⟨passed,same⟩ :=
          ReadLine_line in_.before in_.after false max_len delimiter c d tail more room rest behind
        rw [same] at refused
        cases refused

theorem ReadLine_holds (in_ : IStream) (text : Bytes) (max_len : Nat) (delimiter : Byte)
    (room : 2 ≤ max_len) (holds : Holds in_ text) :
    (ReadLine in_ max_len delimiter).2 = (nextLine max_len delimiter text).map Prod.fst ∧
      Holds (ReadLine in_ max_len delimiter).1 (((nextLine max_len delimiter text).map Prod.snd).getD []) := by
  rcases holds.cases with ⟨before,rfl⟩ | ⟨dead,rfl⟩
  · cases rest : text.dropWhile (· = delimiter) with
    | nil =>
      obtain ⟨none,dead,device⟩ := ReadLine_nil before text false max_len delimiter rest
      simp only [nextLine,rest,Option.map_none,Option.getD_none]
      exact ⟨none,device,.inr ⟨dead,rfl⟩⟩
    | cons c tail =>
      simp only [nextLine,rest,Option.map_some,Option.getD_some]
      cases behind : (c :: tail).drop (line max_len delimiter (c :: tail)).length with
      | nil =>
        obtain ⟨found,dead,device,_⟩ := ReadLine_last before text false max_len delimiter c tail room rest behind
        have spent : (c :: tail).drop ((line max_len delimiter (c :: tail)).length + 1) = [] := by
          rw [← List.drop_drop,behind]
          rfl
        exact ⟨found,device,.inr ⟨dead,spent⟩⟩
      | cons d more =>
        obtain ⟨passed,same⟩ := ReadLine_line before text false max_len delimiter c d tail more room rest behind
        have one : (c :: tail).drop ((line max_len delimiter (c :: tail)).length + 1) = more := by
          rw [← List.drop_drop,behind]
          rfl
        rw [same,one]
        exact ⟨rfl,holds_ready passed more⟩
  · rw [ReadLine_dead in_ max_len delimiter dead]
    exact ⟨rfl,holds.1,.inr ⟨by simp [good],rfl⟩⟩

/-- Whatever the stream, a line that is returned is not empty, fits in the buffer,
holds no delimiter and takes bytes of the stream. -/
theorem ReadLine_some (in_ : IStream) (max_len : Nat) (delimiter : Byte) (room : 2 ≤ max_len)
    (buffer : Bytes) (read : (ReadLine in_ max_len delimiter).2 = some buffer) :
    1 ≤ buffer.length ∧ buffer.length < max_len ∧ delimiter ∉ buffer ∧
      (ReadLine in_ max_len delimiter).1.after.length < in_.after.length := by
  cases alive : in_.good with
  | false => simp [ReadLine_dead in_ max_len delimiter alive] at read
  | true =>
    rw [(good_iff in_).mp alive] at read ⊢
    cases rest : in_.after.dropWhile (· = delimiter) with
    | nil =>
      rw [(ReadLine_nil in_.before in_.after in_.broken max_len delimiter rest).1] at read
      cases read
    | cons c tail =>
      have different := dropWhile_head rest
      have whole := dropWhile_length delimiter in_.after
      have positive := List.length_pos_iff.mpr (line_ne_nil max_len delimiter c tail room different)
      obtain ⟨bound,inside⟩ := line_length max_len delimiter (c :: tail)
      have clean := line_clean max_len delimiter (c :: tail)
      rw [rest] at whole
      cases behind : (c :: tail).drop (line max_len delimiter (c :: tail)).length with
      | nil =>
        obtain ⟨found,_,_,left⟩ :=
          ReadLine_last in_.before in_.after in_.broken max_len delimiter c tail room rest behind
        rw [found] at read
        rw [left]
        cases broken : in_.broken with
        | true => simp [broken] at read
        | false =>
          simp only [broken,Bool.false_eq_true,if_false,Option.some.injEq] at read
          subst read
          simp only [List.length_cons,List.length_nil] at whole ⊢
          exact ⟨positive,by omega,clean,by omega⟩
      | cons d more =>
        obtain ⟨passed,same⟩ :=
          ReadLine_line in_.before in_.after in_.broken max_len delimiter c d tail more room rest behind
        rw [same] at read ⊢
        cases Option.some.inj read
        have lengths := congrArg List.length behind
        simp only [List.length_drop,List.length_cons] at lengths whole ⊢
        exact ⟨positive,by omega,clean,by omega⟩

theorem ReadLine_after_le (in_ : IStream) (max_len : Nat) (delimiter : Byte) (room : 2 ≤ max_len) :
    (ReadLine in_ max_len delimiter).1.after.length ≤ in_.after.length := by
  cases read : (ReadLine in_ max_len delimiter).2 with
  | some buffer => exact (ReadLine_some in_ max_len delimiter room buffer read).2.2.2.le
  | none =>
    cases alive : in_.good with
    | false => rw [ReadLine_dead in_ max_len delimiter alive]
    | true =>
      rw [(good_iff in_).mp alive] at read ⊢
      cases rest : in_.after.dropWhile (· = delimiter) with
      | nil =>
        obtain ⟨same,_⟩ := skip_nil delimiter in_.after in_.before in_.broken (in_.after.length + 1)
          (by omega) rest
        simp only [ReadLine,same,if_true]
        exact loop_invariant (skipDelimiter delimiter) (fun s => s.in_.after.length ≤ in_.after.length)
          (fun s next bound again => (skip_after_le delimiter s next again).trans bound) _ le_rfl _
      | cons c tail =>
        cases behind : (c :: tail).drop (line max_len delimiter (c :: tail)).length with
        | nil =>
          rw [(ReadLine_last in_.before in_.after in_.broken max_len delimiter c tail room rest behind).2.2.2]
          exact Nat.zero_le _
        | cons d more =>
          obtain ⟨passed,same⟩ :=
            ReadLine_line in_.before in_.after in_.broken max_len delimiter c d tail more room rest behind
          simp [same] at read

end FileManager
end TopNFreq
