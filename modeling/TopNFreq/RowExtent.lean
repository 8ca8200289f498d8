import TopNFreq.FileRows

/-! How much of a spill file has to be readable: the bytes that have to be seen so
that the rows come back as from a device that does not fail. -/
namespace TopNFreq
open Library.Text Library.InputStream Library.Loop IStream FileManager

/-- The bytes up to the one behind a URL, and one more than there are where the text ends first. -/
def urlExtent (text : Bytes) : Nat :=
  (text.takeWhile (· = tab)).length + (line MAX_URL_LEN tab (text.dropWhile (· = tab))).length + 1

/-- The sign of a count, the bytes in front of its digits, and the digits. -/
def countParts (text : Bytes) : Bool × Nat × Bytes :=
  let blanks := (text.takeWhile isSpace).length
  let (negative,width) := sign (text.drop blanks)
  (negative,blanks + width,(text.drop (blanks + width)).takeWhile isDigit)

/-- The bytes up to the one behind a count. -/
def countExtent (text : Bytes) : Nat := (countParts text).2.1 + (countParts text).2.2.length + 1

/-- The count and whether reading goes on behind it. -/
def countValue (text : Bytes) : Int32 × Bool :=
  let (negative,_,digits) := countParts text
  if digits = [] then (0,false) else store (if negative then -(number digits : Int) else number digits)

/-- Up to where a spill file is read. A count is looked at unless the file ends with blanks in its
place, and reading goes on until a count is no number in the range of an `int`. -/
def extent (text : Bytes) : Nat :=
  if text.all (· = tab) then 0
  else if (text.drop (urlExtent text)).all isSpace then urlExtent text
  else
    urlExtent text + countExtent (text.drop (urlExtent text)) +
      if (countValue (text.drop (urlExtent text))).2 then
        extent (text.drop (urlExtent text + countExtent (text.drop (urlExtent text)))) else 0
termination_by text.length
decreasing_by
  rename_i row _
  have nonempty : 0 < text.length := by
    apply List.length_pos_iff.mpr
    rintro rfl
    exact row rfl
  simp only [List.length_drop,urlExtent]
  omega

section Front
variable (text rest : Bytes)

theorem takeWhile_front (p : Byte → Bool) : (text.takeWhile p).length ≤ ((text ++ rest).takeWhile p).length := by
  by_cases stop : text.drop (text.takeWhile p).length = []
  · have all : text.takeWhile p = text := (List.takeWhile_prefix _).eq_of_length_le (List.drop_eq_nil_iff.mp stop)
    rw [List.takeWhile_append,all,if_pos rfl,List.length_append]
    exact Nat.le_add_right _ _
  · rw [takeWhile_stop p text rest stop]

theorem tabs_length : (text.takeWhile (· = tab)).length + (text.dropWhile (· = tab)).length = text.length := by
  rw [← List.length_append,List.takeWhile_append_dropWhile]

theorem urlExtent_le : urlExtent text ≤ text.length + 1 := by
  have whole := tabs_length text
  have inside := (line_length MAX_URL_LEN tab (text.dropWhile (· = tab))).2
  unfold urlExtent
  omega

theorem line_front (max_len : Nat) (delimiter : Byte) :
    (line max_len delimiter text).length ≤ (line max_len delimiter (text ++ rest)).length := by
  have front := takeWhile_front text rest (· ≠ delimiter)
  simp only [line,List.length_take]
  omega

variable {text}

theorem dropWhile_front {c : Byte} {tail : Bytes} (start : text.dropWhile (· = tab) = c :: tail) :
    (text ++ rest).takeWhile (· = tab) = text.takeWhile (· = tab) ∧
      (text ++ rest).dropWhile (· = tab) = c :: (tail ++ rest) := by
  have whole := tabs_length text
  rw [start,List.length_cons] at whole
  refine ⟨takeWhile_stop _ text rest ?_,?_⟩
  · rw [ne_eq,List.drop_eq_nil_iff]
    omega
  · rw [List.dropWhile_append,start]
    rfl

/-- A URL whose end is seen is the same whatever follows. -/
theorem urlExtent_inside (inside : urlExtent text ≤ text.length) :
    urlExtent (text ++ rest) = urlExtent text ∧
      line MAX_URL_LEN tab ((text ++ rest).dropWhile (· = tab)) = line MAX_URL_LEN tab (text.dropWhile (· = tab)) := by
  have whole := tabs_length text
  unfold urlExtent at inside ⊢
  cases start : text.dropWhile (· = tab) with
  | nil =>
    rw [start,List.length_nil] at whole
    omega
  | cons c tail =>
    obtain ⟨tabs,more⟩ := dropWhile_front rest start
    rw [start] at inside whole
    have same : line MAX_URL_LEN tab (c :: tail ++ rest) = line MAX_URL_LEN tab (c :: tail) := by
      apply line_shown
      rw [ne_eq,List.drop_eq_nil_iff]
      omega
    rw [tabs,more,← List.cons_append,same]
    exact ⟨rfl,rfl⟩

theorem urlExtent_front : urlExtent text ≤ urlExtent (text ++ rest) := by
  rcases Nat.lt_or_ge text.length (urlExtent text) with behind | inside
  · have whole := tabs_length text
    have upper := urlExtent_le text
    unfold urlExtent at behind upper ⊢
    cases start : text.dropWhile (· = tab) with
    | nil =>
      have tabs := takeWhile_front text rest (· = tab)
      rw [start,List.length_nil] at whole
      rw [line,List.takeWhile_nil,List.take_nil,List.length_nil]
      omega
    | cons c tail =>
      obtain ⟨tabs,more⟩ := dropWhile_front rest start
      have longer := line_front (c :: tail) rest MAX_URL_LEN tab
      rw [tabs,more,← List.cons_append]
      omega
  · exact (urlExtent_inside rest inside).1.ge

theorem countParts_signed {text : Bytes} {negative : Bool} {width : Nat}
    (signed : sign (text.drop (text.takeWhile isSpace).length) = (negative,width)) :
    countParts text = (negative,(text.takeWhile isSpace).length + width,
      ((text.drop (text.takeWhile isSpace).length).drop width).takeWhile isDigit) := by
  rw [List.drop_drop]
  simp only [countParts,signed]

theorem sign_width (numeral : Bytes) : (sign numeral).2 ≤ numeral.length := by
  cases numeral with
  | nil => exact le_rfl
  | cons b more =>
    simp only [sign,List.length_cons]
    split <;> omega

theorem countExtent_le (text : Bytes) :
    (countParts text).2.1 ≤ text.length ∧ countExtent text ≤ text.length + 1 := by
  have blanks := (List.takeWhile_prefix isSpace (l := text)).length_le
  have width := sign_width (text.drop (text.takeWhile isSpace).length)
  rw [List.length_drop] at width
  have start : (countParts text).2.1 ≤ text.length := by
    simp only [countParts]
    omega
  have digits := (List.takeWhile_prefix isDigit (l := text.drop (countParts text).2.1)).length_le
  rw [List.length_drop] at digits
  have same : (countParts text).2.2 = (text.drop (countParts text).2.1).takeWhile isDigit := rfl
  refine ⟨start,?_⟩
  rw [countExtent,same]
  omega

/-- Unless the text ends in front of it, the sign of a count is seen. -/
theorem countParts_front (numeral : text.drop (text.takeWhile isSpace).length ≠ []) :
    (countParts (text ++ rest)).1 = (countParts text).1 ∧ (countParts (text ++ rest)).2.1 = (countParts text).2.1 ∧
      (countParts (text ++ rest)).2.2 = (text.drop (countParts text).2.1 ++ rest).takeWhile isDigit := by
  have spaces := takeWhile_stop isSpace text rest numeral
  have inside := (countExtent_le text).1
  have signs : sign ((text ++ rest).drop (text.takeWhile isSpace).length) = sign (text.drop (text.takeWhile isSpace).length) := by
    rw [List.drop_append_of_le_length (List.takeWhile_prefix _).length_le]
    obtain ⟨c,tail,shape⟩ := List.exists_cons_of_ne_nil numeral
    rw [shape]
    rfl
  have start : (countParts (text ++ rest)).2.1 = (countParts text).2.1 := by
    simp only [countParts,spaces,signs]
  refine ⟨by simp only [countParts,spaces,signs],start,?_⟩
  change ((text ++ rest).drop (countParts (text ++ rest)).2.1).takeWhile isDigit = _
  rw [start,List.drop_append_of_le_length inside]

theorem numeral_seen (inside : countExtent text ≤ text.length) : text.drop (text.takeWhile isSpace).length ≠ [] := by
  have start : (text.takeWhile isSpace).length ≤ (countParts text).2.1 := Nat.le_add_right _ _
  unfold countExtent at inside
  rw [ne_eq,List.drop_eq_nil_iff]
  omega

/-- A count whose end is seen is the same whatever follows. -/
theorem countParts_inside (inside : countExtent text ≤ text.length) : countParts (text ++ rest) = countParts text := by
  obtain ⟨negative,start,digits⟩ := countParts_front rest (numeral_seen inside)
  refine Prod.ext negative (Prod.ext start (digits.trans (takeWhile_stop isDigit _ rest ?_)))
  change (text.drop (countParts text).2.1).drop (countParts text).2.2.length ≠ []
  unfold countExtent at inside
  rw [List.drop_drop,ne_eq,List.drop_eq_nil_iff]
  omega

theorem countExtent_front : countExtent text ≤ countExtent (text ++ rest) := by
  by_cases ended : text.drop (text.takeWhile isSpace).length = []
  · have all : text.length ≤ (text.takeWhile isSpace).length := List.drop_eq_nil_iff.mp ended
    have longer := takeWhile_front text rest isSpace
    have start : ((text ++ rest).takeWhile isSpace).length ≤ (countParts (text ++ rest)).2.1 := Nat.le_add_right _ _
    have upper := (countExtent_le text).2
    unfold countExtent at upper ⊢
    omega
  · obtain ⟨_,start,digits⟩ := countParts_front rest ended
    have longer := takeWhile_front (text.drop (countParts text).2.1) rest isDigit
    have same : (countParts text).2.2 = (text.drop (countParts text).2.1).takeWhile isDigit := rfl
    rw [countExtent,countExtent,start,digits,same]
    omega

end Front

section Reading
variable (before text : Bytes) (broken : Bool) (prior : Int32)

theorem ReadLine_inside (inside : urlExtent text ≤ text.length) :
    ∃ passed, ReadLine (ready before text broken) MAX_URL_LEN tab =
      (ready passed (text.drop (urlExtent text)) broken,some (line MAX_URL_LEN tab (text.dropWhile (· = tab)))) := by
  have whole := List.takeWhile_append_dropWhile (p := fun b => decide (b = tab)) (l := text)
  have sizes := tabs_length text
  unfold urlExtent at inside ⊢
  cases start : text.dropWhile (· = tab) with
  | nil =>
    rw [start,List.length_nil] at sizes
    omega
  | cons c tail =>
    rw [start] at whole inside sizes
    have behind : (c :: tail).drop (line MAX_URL_LEN tab (c :: tail)).length ≠ [] := by
      rw [ne_eq,List.drop_eq_nil_iff]
      omega
    obtain ⟨d,more,left⟩ := List.exists_cons_of_ne_nil behind
    obtain ⟨passed,read⟩ := ReadLine_line before text broken MAX_URL_LEN tab c d tail more (by decide) start left
    have rest : text.drop ((text.takeWhile (· = tab)).length + (line MAX_URL_LEN tab (c :: tail)).length + 1) = more := by
      have front : text.drop (text.takeWhile (· = tab)).length = c :: tail := by
        conv_lhs =>
          arg 2
          rw [← whole]
        exact List.drop_left
      rw [← List.drop_drop,← List.drop_drop,front,left]
      rfl
    exact ⟨passed,by rw [read,rest]⟩

theorem ReadLine_outside (outside : text.length < urlExtent text) (row : text.all (· = tab) = false) :
    (ReadLine (ready before text broken) MAX_URL_LEN tab).2 =
        (if broken then none else some (line MAX_URL_LEN tab (text.dropWhile (· = tab)))) ∧
      (ReadLine (ready before text broken) MAX_URL_LEN tab).1.good = false := by
  have sizes := tabs_length text
  unfold urlExtent at outside
  cases start : text.dropWhile (· = tab) with
  | nil =>
    have all : text.all (· = tab) = true := List.all_eq_true.mpr (List.dropWhile_eq_nil_iff.mp start)
    rw [all] at row
    cases row
  | cons c tail =>
    rw [start] at outside sizes
    have behind : (c :: tail).drop (line MAX_URL_LEN tab (c :: tail)).length = [] := by
      rw [List.drop_eq_nil_iff]
      omega
    obtain ⟨read,dead,_⟩ := ReadLine_last before text broken MAX_URL_LEN tab c tail (by decide) start behind
    exact ⟨read,dead⟩

theorem count_inside (inside : countExtent text ≤ text.length) :
    ((ready before text broken).extractInt prior).2 = (countValue text).1 ∧
      if (countValue text).2 then ∃ passed, ((ready before text broken).extractInt prior).1.get.1 =
        ready passed (text.drop (countExtent text)) broken
      else ((ready before text broken).extractInt prior).1.get.1.good = false := by
  have numeral := numeral_seen inside
  rcases signed : sign (text.drop (text.takeWhile isSpace).length) with ⟨negative,width⟩
  have parts := countParts_signed signed
  generalize found : ((text.drop (text.takeWhile isSpace).length).drop width).takeWhile isDigit = digits at parts
  have size : countExtent text = (text.takeWhile isSpace).length + (width + digits.length) + 1 := by
    simp only [countExtent,parts]
    omega
  rw [size] at inside ⊢
  have more : (text.drop (text.takeWhile isSpace).length).drop (width + digits.length) ≠ [] := by
    rw [List.drop_drop,ne_eq,List.drop_eq_nil_iff]
    omega
  obtain ⟨d,behind,left⟩ := List.exists_cons_of_ne_nil more
  have rest : text.drop ((text.takeWhile isSpace).length + (width + digits.length) + 1) = behind := by
    rw [← List.drop_drop,← List.drop_drop,left]
    rfl
  obtain ⟨passed,read⟩ := extractInt_stop before text broken prior _ digits (d :: behind) negative width rfl
    numeral signed found left (List.cons_ne_nil d behind)
  rw [read,rest]
  simp only [countValue,parts]
  by_cases empty : digits = []
  · simp [empty,get_dead,good]
  · rw [if_neg empty,if_neg empty]
    rcases store (if negative then -(number digits : Int) else number digits) with ⟨value,_ | _⟩
    · simp [get_dead,good]
    · exact ⟨rfl,_,rfl⟩

theorem count_blank (blank : text.all isSpace = true) :
    ((ready before text broken).extractInt prior).2 = prior ∧
      ((ready before text broken).extractInt prior).1.get.1.good = false := by
  have all : text.takeWhile isSpace = text := List.takeWhile_eq_self_iff.mpr (List.all_eq_true.mp blank)
  have ended : text.drop (text.takeWhile isSpace).length = [] := by rw [all,List.drop_length]
  have stuck : (ready before text broken).extractInt prior =
      ({((ready before text broken).advance (text.takeWhile isSpace).length).atEnd with failbit := true},prior) := by
    simp [extractInt,good,ended]
  rw [stuck]
  simp [get_dead,good]

/-- A numeral that reaches up to the end of the text. -/
theorem count_outside (outside : text.length < countExtent text) (numeral : text.all isSpace = false) :
    ((ready before text broken).extractInt prior).2 = (if broken then prior else (countValue text).1) ∧
      ((ready before text broken).extractInt prior).1.get.1.good = false := by
  have nonempty : text.drop (text.takeWhile isSpace).length ≠ [] := by
    intro ended
    have all : text.takeWhile isSpace = text :=
      (List.takeWhile_prefix _).eq_of_length_le (List.drop_eq_nil_iff.mp ended)
    rw [List.all_eq_true.mpr (List.takeWhile_eq_self_iff.mp all)] at numeral
    cases numeral
  rcases signed : sign (text.drop (text.takeWhile isSpace).length) with ⟨negative,width⟩
  have parts := countParts_signed signed
  generalize found : ((text.drop (text.takeWhile isSpace).length).drop width).takeWhile isDigit = digits at parts
  have left : (text.drop (text.takeWhile isSpace).length).drop (width + digits.length) = [] := by
    simp only [countExtent,parts] at outside
    rw [List.drop_drop,List.drop_eq_nil_iff]
    omega
  simp only [extractInt,good,Bool.not_false,Bool.and_self,if_true,advance_ready,if_neg nonempty,signed,found,left,
    countValue,parts]
  cases broken with
  | true => simp [atEnd,get_dead,good]
  | false =>
    by_cases empty : digits = []
    · simp [empty,atEnd,get_dead,good]
    · rcases store (if negative then -(number digits : Int) else number digits) with ⟨value,_ | _⟩
      · simp [empty,atEnd,get_dead,good]
      · simp [empty,atEnd,get_dead,good]

end Reading

section Extent
variable {text rest : Bytes}

theorem extent_none (none : text.all (· = tab) = true) : extent text = 0 := by
  rw [extent,if_pos none]

theorem extent_blank (row : text.all (· = tab) = false) (blank : (text.drop (urlExtent text)).all isSpace = true) :
    extent text = urlExtent text := by
  rw [extent,if_neg (Bool.eq_false_iff.mp row),if_pos blank]

theorem extent_count (row : text.all (· = tab) = false) (numeral : (text.drop (urlExtent text)).all isSpace = false) :
    extent text = urlExtent text + countExtent (text.drop (urlExtent text)) +
      if (countValue (text.drop (urlExtent text))).2 then
        extent ((text.drop (urlExtent text)).drop (countExtent (text.drop (urlExtent text)))) else 0 := by
  rw [extent,if_neg (Bool.eq_false_iff.mp row),if_neg (Bool.eq_false_iff.mp numeral),List.drop_drop]

theorem urlExtent_le_extent (row : text.all (· = tab) = false) : urlExtent text ≤ extent text := by
  cases numeral : (text.drop (urlExtent text)).all isSpace with
  | true => exact (extent_blank row numeral).ge
  | false =>
    rw [extent_count row numeral]
    omega

theorem rowsIn_dead (prior : Int32) {s : IStream} (dead : s.good = false) : rowsIn prior s = [] :=
  rowsIn_none (readRow_dead prior s dead)

theorem rowsIn_inside (before : Bytes) (broken : Bool) (inside : urlExtent text ≤ text.length) :
    ∃ passed, ∀ prior, rowsIn prior (ready before text broken) =
      (line MAX_URL_LEN tab (text.dropWhile (· = tab)),
        ((ready passed (text.drop (urlExtent text)) broken).extractInt prior).2) ::
        rowsIn prior ((ready passed (text.drop (urlExtent text)) broken).extractInt 0).1.get.1 := by
  obtain ⟨passed,read⟩ := ReadLine_inside before text broken inside
  refine ⟨passed,fun prior => ?_⟩
  have found := readRow_some prior (ready before text broken) _ (congrArg Prod.snd read)
  rw [read] at found
  rw [rowsIn_some found,extractInt_stream _ prior 0]

theorem rowsIn_cut (before : Bytes) (prior : Int32) (outside : text.length < urlExtent text) :
    rowsIn prior (ready before text true) = [] := by
  apply rowsIn_none
  rw [readRow_none]
  cases row : text.all (· = tab) with
  | true => exact (ReadLine_nil before text true MAX_URL_LEN tab
      (List.dropWhile_eq_nil_iff.mpr (List.all_eq_true.mp row))).1
  | false => exact (ReadLine_outside before text true outside row).1

theorem rowsIn_row (before : Bytes) (prior : Int32) (row : text.all (· = tab) = false) :
    rowsIn prior (ready before text false) ≠ [] := by
  have url : (ReadLine (ready before text false) MAX_URL_LEN tab).2 =
      some (line MAX_URL_LEN tab (text.dropWhile (· = tab))) := by
    rcases Nat.lt_or_ge text.length (urlExtent text) with outside | inside
    · exact (ReadLine_outside before text false outside row).1
    · obtain ⟨passed,read⟩ := ReadLine_inside before text false inside
      exact congrArg Prod.snd read
  rw [rowsIn_some (readRow_some prior _ _ url)]
  exact List.cons_ne_nil _ _

/-- A count whose end is not seen is what an uninitialised tuple holds. -/
theorem count_spoiled (before other : Bytes) (outside : text.length < countExtent text)
    (numeral : (text ++ rest).all isSpace = false) :
    ∃ prior, ((ready before text true).extractInt prior).2 ≠ ((ready other (text ++ rest) false).extractInt prior).2 := by
  have cut (prior : Int32) : ((ready before text true).extractInt prior).2 = prior := by
    cases blank : text.all isSpace with
    | true => exact (count_blank before text true prior blank).1
    | false => exact (count_outside before text true prior outside blank).1
  have whole (prior : Int32) : ((ready other (text ++ rest) false).extractInt prior).2 = (countValue (text ++ rest)).1 := by
    rcases Nat.lt_or_ge (text ++ rest).length (countExtent (text ++ rest)) with beyond | inside
    · exact (count_outside other (text ++ rest) false prior beyond numeral).1
    · exact (count_inside other (text ++ rest) false prior inside).1
  refine ⟨(countValue (text ++ rest)).1 + 1,?_⟩
  rw [cut,whole]
  grind

theorem rowsIn_tabs (before : Bytes) (broken : Bool) (prior : Int32) (tabs : text.all (· = tab) = true) :
    rowsIn prior (ready before text broken) = [] := by
  apply rowsIn_none
  rw [readRow_none]
  exact (ReadLine_nil before text broken MAX_URL_LEN tab
    (List.dropWhile_eq_nil_iff.mpr (List.all_eq_true.mp tabs))).1

/-- Behind a URL: the count and the rows after it are shown just when `text` goes up to their end. -/
theorem count_extent (before other : Bytes) (numeral : (text ++ rest).all isSpace = false)
    (later : ∀ before other,
      (∀ prior, rowsIn prior (ready before (text.drop (countExtent text)) true) =
        rowsIn prior (ready other (text.drop (countExtent text) ++ rest) false)) ↔
      extent (text.drop (countExtent text) ++ rest) ≤ (text.drop (countExtent text)).length) :
    (∀ prior, ((ready before text true).extractInt prior).2 = ((ready other (text ++ rest) false).extractInt prior).2 ∧
      rowsIn prior ((ready before text true).extractInt 0).1.get.1 =
        rowsIn prior ((ready other (text ++ rest) false).extractInt 0).1.get.1) ↔
    countExtent (text ++ rest) + (if (countValue (text ++ rest)).2 then
      extent ((text ++ rest).drop (countExtent (text ++ rest))) else 0) ≤ text.length := by
  rcases Nat.lt_or_ge text.length (countExtent text) with cut | seen
  · have longer := @countExtent_front text rest
    refine iff_of_false (fun same => ?_) (by omega)
    obtain ⟨prior,differ⟩ := count_spoiled before other cut numeral
    exact differ (same prior).1
  · have parts := countParts_inside rest seen
    have value : countValue (text ++ rest) = countValue text := by rw [countValue,parts,countValue]
    have size : countExtent (text ++ rest) = countExtent text := by rw [countExtent,parts,countExtent]
    have whole : countExtent (text ++ rest) ≤ (text ++ rest).length := by
      rw [size,List.length_append]
      omega
    have one (prior : Int32) := count_inside before text true prior seen
    have two (prior : Int32) := count_inside other (text ++ rest) false prior whole
    simp only [(one _).1,(two _).1,value,true_and]
    replace one := (one 0).2
    replace two := (two 0).2
    rw [value,size,List.drop_append_of_le_length seen] at two
    rw [size,List.drop_append_of_le_length seen]
    cases stored : (countValue text).2 with
    | true =>
      rw [stored,if_pos rfl] at one two
      obtain ⟨_,one⟩ := one
      obtain ⟨_,two⟩ := two
      rw [one,two,if_pos rfl,later,List.length_drop]
      omega
    | false =>
      rw [stored,if_neg Bool.false_ne_true] at one two
      rw [if_neg Bool.false_ne_true]
      refine iff_of_true (fun prior => ?_) (by omega)
      rw [rowsIn_dead prior one,rowsIn_dead prior two]

/-- A device that fails behind `text` shows all rows just when `text` goes up to their extent. The
contents of uninitialised tuples matter, since a count whose read fails is one of them. -/
theorem rowsIn_extent (text rest before other : Bytes) :
    (∀ prior, rowsIn prior (ready before text true) = rowsIn prior (ready other (text ++ rest) false)) ↔
      extent (text ++ rest) ≤ text.length := by
  generalize size : text.length = count
  induction count using Nat.strongRecOn generalizing before other text with
  | ind count ih =>
  subst size
  cases row : (text ++ rest).all (· = tab) with
  | true =>
    have tabs : text.all (· = tab) = true :=
      List.all_eq_true.mpr fun b member => List.all_eq_true.mp row b (List.mem_append_left rest member)
    rw [extent_none row]
    refine iff_of_true (fun prior => ?_) (Nat.zero_le _)
    rw [rowsIn_tabs before true prior tabs,rowsIn_tabs other false prior row]
  | false =>
    rcases Nat.lt_or_ge text.length (urlExtent text) with outside | inside
    · have longer := @urlExtent_front text rest
      have most := urlExtent_le_extent row
      refine iff_of_false (fun same => ?_) (by omega)
      exact rowsIn_row other 0 row ((same 0).symm.trans (rowsIn_cut before 0 outside))
    · obtain ⟨url,found⟩ := urlExtent_inside rest inside
      have behind : (text ++ rest).drop (urlExtent text) = text.drop (urlExtent text) ++ rest :=
        List.drop_append_of_le_length inside
      have whole : urlExtent (text ++ rest) ≤ (text ++ rest).length := by
        rw [url,List.length_append]
        exact inside.trans (Nat.le_add_right _ _)
      obtain ⟨passed,first⟩ := rowsIn_inside before true inside
      obtain ⟨others,second⟩ := rowsIn_inside other false whole
      rw [found,url,behind] at second
      simp only [first,second,List.cons.injEq,Prod.mk.injEq,true_and]
      have left : (text.drop (urlExtent text)).length = text.length - urlExtent text := List.length_drop
      have positive : 0 < urlExtent text := Nat.succ_pos _
      cases numeral : (text.drop (urlExtent text) ++ rest).all isSpace with
      | true =>
        have blank : (text.drop (urlExtent text)).all isSpace = true :=
          List.all_eq_true.mpr fun b member => List.all_eq_true.mp numeral b (List.mem_append_left rest member)
        rw [extent_blank row (by rw [url,behind,numeral]),url]
        refine iff_of_true (fun prior => ?_) inside
        rw [(count_blank passed _ true prior blank).1,(count_blank others _ false prior numeral).1,
          rowsIn_dead _ (count_blank passed _ true 0 blank).2,rowsIn_dead _ (count_blank others _ false 0 numeral).2]
        exact ⟨rfl,rfl⟩
      | false =>
        rw [extent_count row (by rw [url,behind,numeral]),url,behind,
          count_extent passed others numeral fun before other => ih _ (by rw [List.length_drop]; omega) _ _ _ rfl,left]
        omega

theorem extent_le (text : Bytes) : extent text ≤ text.length + 1 := by
  generalize size : text.length = count
  induction count using Nat.strongRecOn generalizing text with
  | ind count ih =>
  subst size
  have url := urlExtent_le text
  cases row : text.all (· = tab) with
  | true => exact (extent_none row).trans_le (Nat.zero_le _)
  | false =>
    cases numeral : (text.drop (urlExtent text)).all isSpace with
    | true => exact (extent_blank row numeral).trans_le url
    | false =>
      have count := (countExtent_le (text.drop (urlExtent text))).2
      have positive : 0 < urlExtent text := Nat.succ_pos _
      have more : 0 < countExtent (text.drop (urlExtent text)) := Nat.succ_pos _
      have inside : text.drop (urlExtent text) ≠ [] := by
        intro ended
        rw [ended] at numeral
        cases numeral
      rw [List.length_drop] at count
      rw [ne_eq,List.drop_eq_nil_iff,not_le] at inside
      rw [extent_count row numeral]
      split
      · rw [List.drop_drop]
        have later := ih (text.drop (urlExtent text + countExtent (text.drop (urlExtent text)))).length
          (by rw [List.length_drop]; omega) _ rfl
        rw [List.length_drop] at later
        rcases Nat.lt_or_ge (List.length text) (urlExtent text + countExtent (text.drop (urlExtent text))) with ended | seen
        · rw [List.drop_of_length_le ended.le,extent_none rfl]
          omega
        · omega
      · omega

theorem urlExtent_row (url more : Bytes) (nonempty : url ≠ []) (short : url.length < MAX_URL_LEN) (clean : tab ∉ url) :
    urlExtent (url ++ tab :: more) = url.length + 1 ∧ (url ++ tab :: more).all (· = tab) = false ∧
      (url ++ tab :: more).drop (url.length + 1) = more := by
  have item := nextLine_row url more nonempty short clean
  have left : (url ++ tab :: more).drop (url.length + 1) = more := by
    rw [← List.drop_drop,List.drop_left]
    rfl
  obtain ⟨c,tail,rfl⟩ := List.exists_cons_of_ne_nil nonempty
  have different : c ≠ tab := fun same => clean (by simp [same])
  have start : (c :: tail ++ tab :: more).dropWhile (· = tab) = c :: (tail ++ tab :: more) := by
    simp [different]
  simp only [nextLine,start,Option.some.injEq,Prod.mk.injEq] at item
  refine ⟨?_,by simp [different],left⟩
  rw [urlExtent,start,item.1]
  simp [different]

theorem count_row (cnt : Int32) (more : Bytes) :
    countExtent (decimalInt cnt.toInt ++ newline :: more) = (decimalInt cnt.toInt).length + 1 ∧
      (countValue (decimalInt cnt.toInt ++ newline :: more)).2 = true ∧
      (decimalInt cnt.toInt ++ newline :: more).all isSpace = false ∧
      (decimalInt cnt.toInt ++ newline :: more).drop ((decimalInt cnt.toInt).length + 1) = more := by
  obtain ⟨negative,width,digits,blanks,signed,found,nonempty,size,value⟩ :=
    numeral_parts (decimalInt_numeral cnt.toInt) (newline :: more) (by simp [newline,isDigit])
  have parts : countParts (decimalInt cnt.toInt ++ newline :: more) = (negative,width,digits) := by
    simp only [countParts,blanks,List.length_nil,Nat.zero_add,List.drop_zero,signed,found]
  refine ⟨by simp only [countExtent,parts,size],?_,?_,?_⟩
  · simp only [countValue,parts,if_neg nonempty,value,store_int]
  · refine Bool.eq_false_iff.mpr fun all => ?_
    rw [List.takeWhile_eq_self_iff.mpr (List.all_eq_true.mp all)] at blanks
    simp at blanks
  · rw [← List.drop_drop,List.drop_left]
    rfl

/-- Where no URL holds a tab, the whole file has to be readable. -/
theorem extent_rows (rows : List (Bytes × Int32)) (readable : ∀ r ∈ rows, RowReadable r) :
    extent (rows.flatMap rowBytes) = (rows.flatMap rowBytes).length := by
  induction rows with
  | nil => exact extent_none rfl
  | cons r rows ih =>
    have rest := ih fun other member => readable other (List.mem_cons_of_mem r member)
    obtain ⟨nonempty,short,clean⟩ := readable r List.mem_cons_self
    have shape : (r :: rows).flatMap rowBytes =
        r.1 ++ tab :: (decimalInt r.2.toInt ++ newline :: rows.flatMap rowBytes) := by
      simp [rowBytes]
    obtain ⟨url,row,behind⟩ := urlExtent_row r.1 (decimalInt r.2.toInt ++ newline :: rows.flatMap rowBytes)
      nonempty short clean
    obtain ⟨count,stored,numeral,later⟩ := count_row r.2 (rows.flatMap rowBytes)
    rw [shape,extent_count row (by rw [url,behind,numeral]),url,behind,count,stored,if_pos rfl,later,rest]
    simp only [List.length_append,List.length_cons]
    omega

end Extent
end TopNFreq
