import TopNFreq.Lines

/-! What repeated calls of `ReadLine` return, for every delimiter and every size of the
buffer: the segments between the delimiters, where a segment that does not fit in the
buffer is cut into pieces and the byte behind each piece is lost. -/
namespace TopNFreq
open Library.Text Library.InputStream Library.Loop IStream FileManager

/-- The segments of a text between the delimiters, without the empty ones. -/
def segments (delimiter : Byte) (text : Bytes) : List Bytes := (text.splitOn delimiter).filter (· ≠ [])

/-- The pieces in which a segment is read. -/
def pieces (max_len : Nat) (text : Bytes) : List Bytes :=
  if text = [] then [] else text.take (max_len - 1) :: pieces max_len (text.drop (max_len - 1 + 1))
termination_by text.length
decreasing_by
  rename_i nonempty
  have positive := List.length_pos_iff.mpr nonempty
  simp only [List.length_drop]
  omega

def readItem (max_len : Nat) (delimiter : Byte) (in_ : IStream) : Option (Bytes × IStream) :=
  match ReadLine in_ max_len delimiter with
  | (_,none) => none
  | (in_,some buffer) => some (buffer,in_)

/-- What `ReadLine` returns until it first answers false. -/
def itemsOf (max_len : Nat) (delimiter : Byte) (in_ : IStream) : List Bytes :=
  collect (readItem max_len delimiter) (in_.after.length + 1) in_

section Pieces
variable {max_len : Nat} (room : 2 ≤ max_len)

theorem pieces_nil (max_len : Nat) : pieces max_len [] = [] := by
  rw [pieces,if_pos rfl]

include room

theorem pieces_cons (text : Bytes) (nonempty : text ≠ []) :
    pieces max_len text = text.take (max_len - 1) :: pieces max_len (text.drop max_len) := by
  rw [pieces,if_neg nonempty,Nat.sub_add_cancel (by omega)]

theorem pieces_short (text : Bytes) (nonempty : text ≠ []) (short : text.length ≤ max_len) :
    pieces max_len text = [text.take (max_len - 1)] := by
  rw [pieces_cons room text nonempty,List.drop_of_length_le short,pieces_nil]

theorem pieces_whole (text : Bytes) (nonempty : text ≠ []) (short : text.length < max_len) :
    pieces max_len text = [text] := by
  rw [pieces_short room text nonempty short.le,List.take_of_length_le (Nat.le_sub_one_of_lt short)]

theorem pieces_long (text : Bytes) (long : max_len < text.length) : 2 ≤ (pieces max_len text).length := by
  have nonempty : text ≠ [] := List.ne_nil_of_length_pos (by omega)
  have more : text.drop max_len ≠ [] := by simpa using long
  rw [pieces_cons room text nonempty,pieces_cons room _ more]
  simp

theorem pieces_count (lines : List Bytes) (nonempty : ∀ l ∈ lines, l ≠ []) :
    lines.length ≤ (lines.flatMap (pieces max_len)).length ∧
      ((lines.flatMap (pieces max_len)).length = lines.length → ∀ l ∈ lines, l.length ≤ max_len) := by
  induction lines with
  | nil => simp
  | cons first rest ih =>
    obtain ⟨least,equal⟩ := ih fun l member => nonempty l (List.mem_cons_of_mem first member)
    have one : 1 ≤ (pieces max_len first).length := by
      rw [pieces_cons room first (nonempty first List.mem_cons_self)]
      exact Nat.succ_pos _
    simp only [List.flatMap_cons,List.length_append,List.length_cons]
    refine ⟨by omega,fun same => ?_⟩
    have alone : (pieces max_len first).length = 1 := by omega
    intro l member
    rcases List.mem_cons.mp member with rfl | later
    · by_contra long
      have two := pieces_long room l (Nat.lt_of_not_le long)
      omega
    · exact equal (by omega) l later

end Pieces

section Cutting
variable (max_len : Nat) (delimiter : Byte)

theorem segments_filter (lines : List Bytes) :
    (lines.filter (· ≠ [])).flatMap (pieces max_len) = lines.flatMap (pieces max_len) := by
  induction lines with
  | nil => rfl
  | cons first rest ih =>
    by_cases empty : first = []
    · simpa [empty,pieces_nil] using ih
    · simpa [empty] using ih

theorem segments_last (text : Bytes) (clean : delimiter ∉ text) :
    (segments delimiter text).flatMap (pieces max_len) = pieces max_len text := by
  rw [segments,segments_filter,List.splitOn_eq_singleton clean]
  simp

theorem segments_front (text more : Bytes) (clean : delimiter ∉ text) :
    (segments delimiter (text ++ delimiter :: more)).flatMap (pieces max_len) =
      pieces max_len text ++ (segments delimiter more).flatMap (pieces max_len) := by
  rw [segments,segments,segments_filter,segments_filter,List.splitOn_append_cons_self_of_not_mem clean,
    List.flatMap_cons]

theorem segments_skip (text : Bytes) : (segments delimiter text).flatMap (pieces max_len) =
    (segments delimiter (text.dropWhile (· = delimiter))).flatMap (pieces max_len) := by
  induction text with
  | nil => rfl
  | cons b rest ih =>
    by_cases same : b = delimiter
    · subst same
      rw [List.dropWhile_cons_of_pos (by simp),← ih]
      simpa [pieces_nil] using segments_front max_len b [] rest (by simp)
    · rw [List.dropWhile_cons_of_neg (by simpa using same)]

theorem first_segment (text : Bytes) :
    ∃ first behind, text = first ++ behind ∧ delimiter ∉ first ∧ text.takeWhile (· ≠ delimiter) = first ∧
      (behind = [] ∨ ∃ more, behind = delimiter :: more) := by
  refine ⟨text.takeWhile (· ≠ delimiter),text.dropWhile (· ≠ delimiter),List.takeWhile_append_dropWhile.symm,
    fun member => by simpa using List.mem_takeWhile_imp member,rfl,?_⟩
  cases rest : text.dropWhile (· ≠ delimiter) with
  | nil => exact .inl rfl
  | cons b more =>
    have head := List.head?_dropWhile_not (fun b => decide (b ≠ delimiter)) text
    rw [rest] at head
    have same : b = delimiter := by simpa using head
    exact .inr ⟨more,by rw [same]⟩

theorem segments_next (room : 2 ≤ max_len) (c : Byte) (tail : Bytes) (different : c ≠ delimiter) :
    (segments delimiter (c :: tail)).flatMap (pieces max_len) = line max_len delimiter (c :: tail) ::
      (segments delimiter ((c :: tail).drop ((line max_len delimiter (c :: tail)).length + 1))).flatMap
        (pieces max_len) := by
  obtain ⟨first,behind,parts,clean,taken,shape⟩ := first_segment delimiter (c :: tail)
  have nonempty : first ≠ [] := by
    rintro rfl
    simp [different] at taken
  have buffer : line max_len delimiter (c :: tail) = first.take (max_len - 1) := by
    rw [line,taken]
  rw [buffer,parts]
  rcases Nat.lt_or_ge first.length max_len with short | long
  · rw [List.take_of_length_le (Nat.le_sub_one_of_lt short)]
    rcases shape with rfl | ⟨more,rfl⟩
    · rw [List.append_nil,segments_last max_len delimiter first clean,pieces_whole room first nonempty short,
        List.drop_of_length_le (Nat.le_succ _)]
      rfl
    · rw [segments_front max_len delimiter first more clean,pieces_whole room first nonempty short,
        ← List.drop_drop,List.drop_left]
      rfl
  · have size : (first.take (max_len - 1)).length + 1 = max_len := by
      simp only [List.length_take]
      omega
    have rest : delimiter ∉ first.drop max_len := fun member => clean (List.mem_of_mem_drop member)
    rw [size,List.drop_append_of_le_length long]
    rcases shape with rfl | ⟨more,rfl⟩
    · rw [List.append_nil,List.append_nil,segments_last max_len delimiter first clean,
        segments_last max_len delimiter _ rest,pieces_cons room first nonempty]
    · rw [segments_front max_len delimiter first more clean,segments_front max_len delimiter _ more rest,
        pieces_cons room first nonempty,List.cons_append]

end Cutting

section Items
variable {max_len : Nat} {delimiter : Byte}

theorem itemsOf_none (in_ rest : IStream) (read : ReadLine in_ max_len delimiter = (rest,none)) :
    itemsOf max_len delimiter in_ = [] := by
  apply collect_none
  simp only [readItem,read]

theorem itemsOf_some (room : 2 ≤ max_len) (in_ rest : IStream) (buffer : Bytes)
    (read : ReadLine in_ max_len delimiter = (rest,some buffer)) :
    itemsOf max_len delimiter in_ = buffer :: itemsOf max_len delimiter rest := by
  apply collect_some (readItem max_len delimiter) (fun in_ => in_.after.length)
  · intro in_ item next found
    unfold readItem at found
    split at found
    · cases found
    · rename_i same
      cases found
      have taken := (ReadLine_some in_ max_len delimiter room item (by rw [same])).2.2.2
      rwa [same] at taken
  · simp only [readItem,read]

theorem itemsOf_holds (room : 2 ≤ max_len) (in_ : IStream) (text : Bytes) (holds : Holds in_ text) :
    itemsOf max_len delimiter in_ = (segments delimiter text).flatMap (pieces max_len) := by
  generalize size : text.length = count
  induction count using Nat.strongRecOn generalizing in_ text with
  | ind count ih =>
    obtain ⟨found,left⟩ := ReadLine_holds in_ text max_len delimiter room holds
    have whole := (List.dropWhile_suffix (fun b => decide (b = delimiter)) (l := text)).length_le
    rw [segments_skip]
    cases start : text.dropWhile (· = delimiter) with
    | nil =>
      simp only [nextLine,start,Option.map_none] at found
      rw [itemsOf_none in_ (ReadLine in_ max_len delimiter).1 (Prod.ext rfl found)]
      rfl
    | cons c tail =>
      simp only [nextLine,start,Option.map_some,Option.getD_some] at found left
      rw [start] at whole
      have different := dropWhile_head start
      have shorter : ((c :: tail).drop ((line max_len delimiter (c :: tail)).length + 1)).length < count := by
        simp only [List.length_drop,List.length_cons] at whole ⊢
        omega
      rw [itemsOf_some room in_ _ _ (Prod.ext rfl found),ih _ shorter _ _ left rfl,
        segments_next max_len delimiter room c tail different]

end Items

section LongLines

/-- `ReadLine` returns one item for each segment exactly when no segment is longer than
the buffer. -/
theorem one_item_per_line (in_ : IStream) (text : Bytes) (holds : Holds in_ text) (delimiter : Byte)
    (max_len : Nat) (room : 2 ≤ max_len) :
    itemsOf max_len delimiter in_ = (segments delimiter text).map (List.take (max_len - 1)) ↔
      ∀ segment ∈ segments delimiter text, segment.length ≤ max_len := by
  rw [itemsOf_holds room in_ text holds]
  have nonempty : ∀ segment ∈ segments delimiter text, segment ≠ [] := fun segment member => by
    simpa using (List.mem_filter.mp member).2
  constructor
  · intro same
    have counts := congrArg List.length same
    rw [List.length_map] at counts
    exact (pieces_count room _ nonempty).2 counts
  · intro short
    rw [← List.flatMap_singleton' ((segments delimiter text).map _),List.flatMap_map]
    apply List.flatMap_congr
    intro segment member
    exact pieces_short room segment (nonempty segment member) (short segment member)

/-- `0123456789\n\n01234567890\n` and a buffer of 11 bytes, as in the unit test. -/
theorem one_item_per_line_eleven :
    itemsOf 11 newline (.opened
      [48,49,50,51,52,53,54,55,56,57,10,10,48,49,50,51,52,53,54,55,56,57,48,10] none) =
      [[48,49,50,51,52,53,54,55,56,57],[48,49,50,51,52,53,54,55,56,57]] := by
  have read := (one_item_per_line _ _ (holds_opened
    [48,49,50,51,52,53,54,55,56,57,10,10,48,49,50,51,52,53,54,55,56,57,48,10]) newline 11 (by decide)).mpr
    (by decide)
  rw [read]
  decide

/-- One byte more in the second line, `012345678901`: the last byte is a line of its own. -/
theorem long_line_two_items :
    itemsOf 11 newline (.opened [48,49,50,51,52,53,54,55,56,57,48,49,10] none) ≠
      (segments newline [48,49,50,51,52,53,54,55,56,57,48,49,10]).map (List.take (11 - 1)) := by
  decide

end LongLines
end TopNFreq
