import TopNFreq.Segments

/-! The URLs of the input: what `ReadLine` returns call by call, and how they
come from the lines of the file. A line that does not fit in the buffer is cut
into pieces, and the byte behind each piece is lost. -/
namespace TopNFreq
open Library.Text Library.InputStream IStream FileManager

/-- All URLs that `ReadLine` returns. -/
def urlsOf (in_ : IStream) : List Bytes := itemsOf MAX_URL_LEN newline in_

/-- The lines of a text that are not empty. -/
def linesOf (text : Bytes) : List Bytes := segments newline text

/-- The pieces in which a line is read. -/
def chop (text : Bytes) : List Bytes := pieces MAX_URL_LEN text

theorem ReadLine_url (in_ rest : IStream) (url : Bytes)
    (read : ReadLine in_ MAX_URL_LEN newline = (rest,some url)) :
    1 ≤ url.length ∧ url.length < MAX_URL_LEN ∧ newline ∉ url ∧
      rest.after.length < in_.after.length := by
  have found := ReadLine_some in_ MAX_URL_LEN newline (by decide) url (by rw [read])
  rwa [read] at found

theorem urlsOf_none (in_ rest : IStream) (read : ReadLine in_ MAX_URL_LEN newline = (rest,none)) :
    urlsOf in_ = [] := itemsOf_none in_ rest read

theorem urlsOf_some (in_ rest : IStream) (url : Bytes)
    (read : ReadLine in_ MAX_URL_LEN newline = (rest,some url)) : urlsOf in_ = url :: urlsOf rest :=
  itemsOf_some (by decide) in_ rest url read

theorem urlsOf_bounds (in_ : IStream) :
    ∀ url ∈ urlsOf in_, 1 ≤ url.length ∧ url.length < MAX_URL_LEN ∧ newline ∉ url := by
  generalize size : in_.after.length = count
  induction count using Nat.strongRecOn generalizing in_ with
  | ind count ih =>
    intro url member
    rcases read : ReadLine in_ MAX_URL_LEN newline with ⟨rest,_ | first⟩
    · simp [urlsOf_none in_ rest read] at member
    · obtain ⟨positive,short,clean,taken⟩ := ReadLine_url in_ rest first read
      rw [urlsOf_some in_ rest first read] at member
      rcases List.mem_cons.mp member with rfl | later
      · exact ⟨positive,short,clean⟩
      · exact ih rest.after.length (by omega) rest rfl url later

theorem chop_nil : chop [] = [] := pieces_nil MAX_URL_LEN

theorem chop_short (text : Bytes) (nonempty : text ≠ []) (short : text.length < MAX_URL_LEN) :
    chop text = [text] := pieces_whole (by decide) text nonempty short

private theorem pieces_last (text : Bytes) (clean : newline ∉ text) :
    (linesOf text).flatMap chop = chop text := segments_last MAX_URL_LEN newline text clean

theorem pieces_line (text more : Bytes) (clean : newline ∉ text) :
    (linesOf (text ++ newline :: more)).flatMap chop = chop text ++ (linesOf more).flatMap chop :=
  segments_front MAX_URL_LEN newline text more clean

private theorem pieces_skip (text : Bytes) :
    (linesOf text).flatMap chop = (linesOf (text.dropWhile (· = newline))).flatMap chop :=
  segments_skip MAX_URL_LEN newline text

private theorem pieces_next (c : Byte) (tail : Bytes) (different : c ≠ newline) :
    (linesOf (c :: tail)).flatMap chop = line MAX_URL_LEN newline (c :: tail) ::
      (linesOf ((c :: tail).drop ((line MAX_URL_LEN newline (c :: tail)).length + 1))).flatMap chop :=
  segments_next MAX_URL_LEN newline (by decide) c tail different

theorem urlsOf_holds (in_ : IStream) (text : Bytes) (holds : Holds in_ text) :
    urlsOf in_ = (linesOf text).flatMap chop := itemsOf_holds (by decide) in_ text holds

theorem urlsOf_lines (in_ : IStream) (text : Bytes) (holds : Holds in_ text)
    (short : ∀ l ∈ linesOf text, l.length < MAX_URL_LEN) : urlsOf in_ = linesOf text := by
  rw [urlsOf_holds in_ text holds]
  have whole : ∀ l ∈ linesOf text, chop l = [l] := by
    intro l member
    have nonempty : l ≠ [] := by simpa using (List.mem_filter.mp member).2
    exact chop_short l nonempty (short l member)
  rw [List.flatMap_congr whole,List.flatMap_singleton']

/-! A device that fails: a piece is read when the byte behind it is. -/

private theorem pieces_newlines (text : Bytes) (blank : text.dropWhile (· = newline) = []) :
    (linesOf text).flatMap chop = [] := by
  rw [pieces_skip,blank]
  rfl

private theorem dropWhile_dropLast (text : Bytes) (b : Byte) (rest : Bytes)
    (shape : text.dropWhile (· = newline) = b :: rest) :
    text.dropLast.dropWhile (· = newline) = (b :: rest).dropLast.dropWhile (· = newline) := by
  induction text with
  | nil => simp at shape
  | cons c tail ih =>
    by_cases same : c = newline
    · subst same
      rw [List.dropWhile_cons_of_pos (by simp)] at shape
      have nonempty : tail ≠ [] := by
        rintro rfl
        simp at shape
      rw [List.dropLast_cons_of_ne_nil nonempty,List.dropWhile_cons_of_pos (by simp)]
      exact ih shape
    · rw [List.dropWhile_cons_of_neg (by simpa using same)] at shape
      rw [shape]

private theorem pieces_cut (buffer behind : Bytes) (nonempty : buffer ≠ []) (clean : newline ∉ buffer)
    (short : buffer.length ≤ MAX_URL_LEN - 1)
    (stop : behind.head? = some newline ∨ behind = [] ∨ buffer.length = MAX_URL_LEN - 1) :
    (linesOf (buffer ++ behind)).flatMap chop = buffer :: (linesOf (behind.drop 1)).flatMap chop := by
  obtain ⟨c,tail,rfl⟩ := List.exists_cons_of_ne_nil nonempty
  have different : c ≠ newline := fun same => clean (by simp [same])
  have taken : line MAX_URL_LEN newline (c :: (tail ++ behind)) = c :: tail := by
    rw [line,← List.cons_append,List.takeWhile_append_of_pos fun b member => by
      simpa using fun same : b = newline => clean (same ▸ member)]
    rcases stop with first | rfl | full
    · obtain ⟨more,rfl⟩ := List.head?_eq_some_iff.mp first
      rw [List.takeWhile_cons_of_neg (by simp),List.append_nil,List.take_of_length_le short]
    · rw [List.takeWhile_nil,List.append_nil,List.take_of_length_le short]
    · rw [← full,List.take_left]
  rw [List.cons_append,pieces_next c (tail ++ behind) different,taken,← List.cons_append,← List.drop_drop,
    List.drop_left]

private theorem line_longer (buffer rest : Bytes) (clean : newline ∉ buffer)
    (short : buffer.length ≤ MAX_URL_LEN - 1) :
    buffer.length ≤ (line MAX_URL_LEN newline (buffer ++ rest)).length := by
  rw [line,List.takeWhile_append_of_pos fun b member => by
    simpa using fun same : b = newline => clean (same ▸ member)]
  simp only [List.length_take,List.length_append]
  omega

private theorem line_stop (c d : Byte) (tail more : Bytes)
    (behind : (c :: tail).drop (line MAX_URL_LEN newline (c :: tail)).length = d :: more) :
    d = newline ∨ (line MAX_URL_LEN newline (c :: tail)).length = MAX_URL_LEN - 1 := by
  obtain ⟨first,after,parts,_,taken,shape⟩ := first_segment newline (c :: tail)
  rw [line,taken] at behind ⊢
  rcases Nat.lt_or_ge (MAX_URL_LEN - 1) first.length with long | short
  · right
    rw [List.length_take]
    omega
  · left
    rw [List.take_of_length_le short,parts,List.drop_left] at behind
    rcases shape with rfl | ⟨more,rfl⟩
    · cases behind
    · exact (List.cons.inj behind).1.symm

/-- A piece that ends where the text ends is cut short with the text. -/
private theorem pieces_shorter (buffer piece : Bytes) (pieces : List Bytes) (nonempty : buffer ≠ [])
    (clean : newline ∉ buffer) (short : buffer.length ≤ MAX_URL_LEN - 1) (longer : buffer.length ≤ piece.length) :
    (linesOf buffer.dropLast).flatMap chop ≠ piece :: pieces := by
  intro same
  rw [pieces_last buffer.dropLast fun member => clean (List.dropLast_subset buffer member)] at same
  by_cases empty : buffer.dropLast = []
  · rw [empty,chop_nil] at same
    cases same
  · have fewer : buffer.dropLast.length < MAX_URL_LEN := by
      rw [List.length_dropLast]
      exact (Nat.sub_le _ _).trans_lt (Nat.lt_of_le_sub_one (by decide) short)
    rw [chop_short _ empty fewer] at same
    have lengths := congrArg List.length (List.cons.inj same).1
    have positive := List.length_pos_iff.mpr nonempty
    rw [List.length_dropLast] at lengths
    omega

section Cut
variable {buffer : Bytes} {d : Byte} (nonempty : buffer ≠ []) (clean : newline ∉ buffer)
  (short : buffer.length ≤ MAX_URL_LEN - 1) (stop : d = newline ∨ buffer.length = MAX_URL_LEN - 1)
include nonempty clean short stop

private theorem pieces_stopped (more : Bytes) :
    (linesOf (buffer ++ d :: more)).flatMap chop = buffer :: (linesOf more).flatMap chop := by
  refine pieces_cut buffer (d :: more) nonempty clean short ?_
  rcases stop with rfl | full
  · exact .inl rfl
  · exact .inr (.inr full)

private theorem pieces_stopped_dropLast (more : Bytes) :
    (linesOf (buffer ++ d :: more).dropLast).flatMap chop = buffer :: (linesOf more.dropLast).flatMap chop := by
  rw [List.dropLast_append_of_ne_nil (List.cons_ne_nil d more)]
  cases more with
  | nil => simpa using pieces_cut buffer [] nonempty clean short (.inr (.inl rfl))
  | cons e later => exact pieces_stopped nonempty clean short stop (e :: later).dropLast

end Cut

/-- Reading in front of a device error loses no piece just when the text up to the
byte before the error holds all pieces. -/
theorem urlsOf_broken (before text rest : Bytes) :
    urlsOf (ready before text true) = (linesOf (text ++ rest)).flatMap chop ↔
      (linesOf text.dropLast).flatMap chop = (linesOf (text ++ rest)).flatMap chop := by
  generalize size : text.length = count
  induction count using Nat.strongRecOn generalizing before text with
  | ind count ih =>
    have whole := (List.dropWhile_suffix (fun b => decide (b = newline)) (l := text)).length_le
    cases start : text.dropWhile (· = newline) with
    | nil =>
      have read := (ReadLine_nil before text true MAX_URL_LEN newline start).1
      have blank : text.dropLast.dropWhile (· = newline) = [] := by
        rw [List.dropWhile_eq_nil_iff] at start ⊢
        exact fun b member => start b (List.dropLast_subset text member)
      rw [urlsOf_none _ _ (Prod.ext rfl read),pieces_newlines _ blank]
    | cons c tail =>
      have different := dropWhile_head start
      have front : (text ++ rest).dropWhile (· = newline) = c :: tail ++ rest := by
        rw [List.dropWhile_append,start]
        simp
      have shorter : (linesOf text.dropLast).flatMap chop = (linesOf (c :: tail).dropLast).flatMap chop := by
        rw [pieces_skip,dropWhile_dropLast text c tail start,← pieces_skip]
      rw [start] at whole
      generalize bufferIs : line MAX_URL_LEN newline (c :: tail) = buffer
      have nonempty : buffer ≠ [] := bufferIs ▸ line_ne_nil MAX_URL_LEN newline c tail (by decide) different
      have clean : newline ∉ buffer := bufferIs ▸ line_clean MAX_URL_LEN newline (c :: tail)
      have short : buffer.length ≤ MAX_URL_LEN - 1 := bufferIs ▸ (line_length MAX_URL_LEN newline (c :: tail)).1
      have taken := List.take_append_drop buffer.length (c :: tail)
      rw [← bufferIs,← line_prefix,bufferIs] at taken
      rw [pieces_skip (text ++ rest),front,shorter]
      cases behind : (c :: tail).drop buffer.length with
      | nil =>
        -- The piece reaches up to the error: it is lost, and the text in front of its last byte lacks it too.
        rw [behind,List.append_nil] at taken
        have read := (ReadLine_last before text true MAX_URL_LEN newline c tail (by decide) start
          (bufferIs ▸ behind)).1
        rw [urlsOf_none _ _ (Prod.ext rfl read),← taken]
        have next := pieces_next c (tail ++ rest) different
        rw [← List.cons_append,← taken] at next
        rw [next]
        refine ⟨fun none => absurd none.symm (List.cons_ne_nil _ _),fun same => ?_⟩
        exact absurd same (pieces_shorter buffer _ _ nonempty clean short (line_longer buffer rest clean short))
      | cons d more =>
        rw [behind] at taken
        have stop := line_stop c d tail more (bufferIs ▸ behind)
        rw [bufferIs] at stop
        obtain ⟨passed,read⟩ := ReadLine_line before text true MAX_URL_LEN newline c d tail more (by decide)
          start (bufferIs ▸ behind)
        rw [urlsOf_some _ _ _ read,bufferIs,← taken,List.append_assoc,List.cons_append,
          pieces_stopped nonempty clean short stop,pieces_stopped_dropLast nonempty clean short stop,
          List.cons.injEq,List.cons.injEq]
        have fewer : more.length < count := by
          have lengths := congrArg List.length taken
          simp only [List.length_append,List.length_cons] at lengths whole
          omega
        simpa using ih more.length fewer passed more rfl

/-- The position of a failing read lies behind the byte that ends the last piece. -/
def PiecesBefore (content : Bytes) (position : Nat) : Prop :=
  (linesOf (content.take (position - 1))).flatMap chop = (linesOf content).flatMap chop

/-- The URLs read from a file are the pieces of its lines, just when no read up to
the byte behind the last piece fails. -/
theorem urlsOf_opened (content : Bytes) (fault : Option Nat) :
    urlsOf (opened content fault) = (linesOf content).flatMap chop ↔
      ∀ position, fault = some position → position ≤ content.length → PiecesBefore content position := by
  cases fault with
  | none => simp [urlsOf_holds _ content (holds_opened content)]
  | some position =>
    rcases Nat.lt_or_ge content.length position with behind | inside
    · rw [opened_behind content position behind,urlsOf_holds _ content (holds_opened content)]
      simp only [Option.some.injEq,true_iff]
      rintro same rfl within
      omega
    · have cut : opened content (some position) = ready [] (content.take position) true := by
        simp [opened,inside]
      have broken := urlsOf_broken [] (content.take position) (content.drop position)
      rw [List.take_append_drop] at broken
      have front : (content.take position).dropLast = content.take (position - 1) := by
        rw [List.dropLast_eq_take,List.length_take,List.take_take]
        congr 1
        omega
      rw [front] at broken
      rw [cut,broken]
      simp only [Option.some.injEq,forall_eq',PiecesBefore,inside,true_imp_iff]

end TopNFreq
