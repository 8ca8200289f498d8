import TopNFreq.RowFormat

/-! The rows of a spill file as they are read back, on a device that fails as
well: the URL of a row is read as it was written, or the row is lost. -/
namespace TopNFreq
open Library.Text Library.InputStream Library.Loop IStream FileManager

/-- One row and the stream behind it; `prior` is the count of an uninitialised tuple. -/
def readRow (prior : Int32) (in_ : IStream) : Option ((Bytes × Int32) × IStream) :=
  match ReadLine in_ MAX_URL_LEN tab with
  | (_,none) => none
  | (in_,some url) => some ((url,(in_.extractInt prior).2),(in_.extractInt prior).1.get.1)

/-- All rows that `NextResultTupleInFile` reads from a file. -/
def rowsIn (prior : Int32) (in_ : IStream) : List (Bytes × Int32) :=
  collect (readRow prior) (in_.after.length + 1) in_

theorem readRow_none (prior : Int32) (in_ : IStream) :
    readRow prior in_ = none ↔ (ReadLine in_ MAX_URL_LEN tab).2 = none := by
  unfold readRow
  split <;> rename_i read <;> simp [read]

theorem readRow_some (prior : Int32) (in_ : IStream) (url : Bytes)
    (found : (ReadLine in_ MAX_URL_LEN tab).2 = some url) : readRow prior in_ =
      some ((url,((ReadLine in_ MAX_URL_LEN tab).1.extractInt prior).2),
        ((ReadLine in_ MAX_URL_LEN tab).1.extractInt prior).1.get.1) := by
  rcases read : ReadLine in_ MAX_URL_LEN tab with ⟨left,_ | text⟩
  · rw [read] at found
    cases found
  · rw [read] at found
    cases found
    simp only [readRow,read]

theorem readRow_taken (prior : Int32) (in_ : IStream) (row : Bytes × Int32) (next : IStream)
    (read : readRow prior in_ = some (row,next)) : next.after.length < in_.after.length := by
  cases found : (ReadLine in_ MAX_URL_LEN tab).2 with
  | none =>
    rw [(readRow_none prior in_).mpr found] at read
    cases read
  | some url =>
    rw [readRow_some prior in_ url found] at read
    cases read
    have taken := (ReadLine_some in_ MAX_URL_LEN tab (by decide) url found).2.2.2
    have kept := extractInt_after_le (ReadLine in_ MAX_URL_LEN tab).1 prior
    have last := get_after_le ((ReadLine in_ MAX_URL_LEN tab).1.extractInt prior).1
    omega

theorem rowsIn_none {prior : Int32} {in_ : IStream} (ended : readRow prior in_ = none) : rowsIn prior in_ = [] :=
  collect_none _ _ _ ended

theorem rowsIn_some {prior : Int32} {in_ next : IStream} {row : Bytes × Int32}
    (found : readRow prior in_ = some (row,next)) : rowsIn prior in_ = row :: rowsIn prior next :=
  collect_some (readRow prior) (fun in_ => in_.after.length) (readRow_taken prior) in_ next row found

theorem readRow_dead (prior : Int32) (in_ : IStream) (dead : in_.good = false) : readRow prior in_ = none := by
  rw [readRow_none,ReadLine_dead in_ _ _ dead]

theorem readRow_prior (prior other : Int32) (in_ : IStream) :
    readRow prior in_ = none ∧ readRow other in_ = none ∨
      ∃ url cnt otherCnt next, readRow prior in_ = some ((url,cnt),next) ∧
        readRow other in_ = some ((url,otherCnt),next) := by
  cases found : (ReadLine in_ MAX_URL_LEN tab).2 with
  | none => exact .inl ⟨(readRow_none prior in_).mpr found,(readRow_none other in_).mpr found⟩
  | some url =>
    have second := readRow_some other in_ url found
    rw [extractInt_stream _ other prior] at second
    exact .inr ⟨url,_,_,_,readRow_some prior in_ url found,second⟩

namespace FileMerger

theorem NextResultTupleInFile_none (env : Platform) (in_ : IStream) (pool : Arena) (res : ResultTuple)
    (ended : readRow res.cnt in_ = none) :
    NextResultTupleInFile env in_ pool res = (false,(ReadLine in_ MAX_URL_LEN tab).1,pool,res) := by
  rcases NextResultTupleInFile_cases env in_ pool res with ⟨_,same⟩ | ⟨url,found,_⟩
  · exact same
  · rw [(readRow_none _ _).mp ended] at found
    cases found

theorem NextResultTupleInFile_some (env : Platform) (in_ next : IStream) (pool : Arena) (res : ResultTuple)
    (row : Bytes × Int32) (read : readRow res.cnt in_ = some (row,next)) :
    NextResultTupleInFile env in_ pool res =
      (true,next,(pool.deposit env row.1).2,{res with str := (pool.deposit env row.1).1, cnt := row.2}) := by
  rcases NextResultTupleInFile_cases env in_ pool res with ⟨nothing,_⟩ | ⟨url,found,same⟩
  · rw [(readRow_none _ _).mpr nothing] at read
    cases read
  · rw [readRow_some res.cnt in_ url found] at read
    cases read
    exact same

end FileMerger

/-- A device that fails shows the beginning of what the sound one holds. -/
inductive Shown : IStream → IStream → Prop
  | intro (before other text rest : Bytes) : Shown (ready before text true) (ready other (text ++ rest) false)

theorem takeWhile_stop (p : Byte → Bool) (text rest : Bytes) (stop : text.drop (text.takeWhile p).length ≠ []) :
    (text ++ rest).takeWhile p = text.takeWhile p := by
  rw [List.takeWhile_append,if_neg]
  intro whole
  apply stop
  rw [whole,List.drop_length]

theorem line_shown (text rest : Bytes)
    (stop : text.drop (line MAX_URL_LEN tab text).length ≠ []) :
    line MAX_URL_LEN tab (text ++ rest) = line MAX_URL_LEN tab text := by
  unfold line at stop ⊢
  by_cases whole : text.drop (text.takeWhile (· ≠ tab)).length = []
  · have all : text.takeWhile (· ≠ tab) = text := by
      apply (List.takeWhile_prefix _).eq_of_length_le
      exact List.drop_eq_nil_iff.mp whole
    rw [all] at stop ⊢
    have short : MAX_URL_LEN - 1 ≤ text.length := by
      by_contra long
      apply stop
      rw [List.take_of_length_le (by omega),List.drop_length]
    rw [List.takeWhile_append,all,if_pos rfl,List.take_append_of_le_length short]
  · rw [takeWhile_stop _ text rest whole]

theorem ReadLine_shown (before other text rest url : Bytes)
    (found : (ReadLine (ready before text true) MAX_URL_LEN tab).2 = some url) :
    ∃ passed more behind, ReadLine (ready before text true) MAX_URL_LEN tab = (ready passed more true,some url) ∧
      ReadLine (ready other (text ++ rest) false) MAX_URL_LEN tab = (ready behind (more ++ rest) false,some url) := by
  cases skipped : text.dropWhile (· = tab) with
  | nil =>
    rw [(ReadLine_nil before text true MAX_URL_LEN tab skipped).1] at found
    cases found
  | cons c tail =>
    have again : (text ++ rest).dropWhile (· = tab) = c :: (tail ++ rest) := by
      rw [List.dropWhile_append,skipped]
      rfl
    cases behind : (c :: tail).drop (line MAX_URL_LEN tab (c :: tail)).length with
    | nil =>
      rw [(ReadLine_last before text true MAX_URL_LEN tab c tail (by decide) skipped behind).1] at found
      cases found
    | cons d more =>
      have same : line MAX_URL_LEN tab (c :: (tail ++ rest)) = line MAX_URL_LEN tab (c :: tail) :=
        line_shown (c :: tail) rest (by rw [behind]; simp)
      have left : (c :: (tail ++ rest)).drop (line MAX_URL_LEN tab (c :: (tail ++ rest))).length =
          d :: (more ++ rest) := by
        have inside : (line MAX_URL_LEN tab (c :: tail)).length ≤ (c :: tail).length :=
          (line_length MAX_URL_LEN tab (c :: tail)).2
        rw [same,← List.cons_append,List.drop_append_of_le_length inside,behind]
        rfl
      obtain ⟨passed,read⟩ := ReadLine_line before text true MAX_URL_LEN tab c d tail more (by decide) skipped behind
      obtain ⟨later,second⟩ := ReadLine_line other (text ++ rest) false MAX_URL_LEN tab c d (tail ++ rest)
        (more ++ rest) (by decide) again left
      rw [read] at found
      cases found
      rw [same] at second
      exact ⟨passed,more,later,read,second⟩

theorem extractInt_shown (before other text rest : Bytes) (prior : Int32) :
    ((ready before text true).extractInt prior).1.get.1.good = false ∨
      Shown ((ready before text true).extractInt prior).1.get.1
        ((ready other (text ++ rest) false).extractInt prior).1.get.1 := by
  have dead (s : IStream) (bad : s.good = false) : s.get.1.good = false := by
    rw [get_dead s bad]
    simp [good]
  by_cases blank : text.drop (text.takeWhile isSpace).length = []
  · left
    apply dead
    simp [extractInt,good,blank,atEnd]
  have spaces := takeWhile_stop isSpace text rest blank
  have skipped : (text ++ rest).drop (text.takeWhile isSpace).length =
      text.drop (text.takeWhile isSpace).length ++ rest :=
    List.drop_append_of_le_length (List.takeWhile_prefix _).length_le
  generalize seen : text.drop (text.takeWhile isSpace).length = numeral at blank skipped
  obtain ⟨c,tail,rfl⟩ := List.exists_cons_of_ne_nil blank
  have signs : sign (c :: tail ++ rest) = sign (c :: tail) := rfl
  rcases signed : sign (c :: tail) with ⟨negative,width⟩
  have narrow : width ≤ (c :: tail).length := by
    have value := congrArg Prod.snd signed
    simp only [sign] at value
    rw [← value,List.length_cons]
    split <;> omega
  by_cases short : ((c :: tail).drop width).drop (((c :: tail).drop width).takeWhile isDigit).length = []
  · left
    apply dead
    rw [List.drop_drop] at short
    simp [extractInt,good,seen,signed,short,atEnd]
  have digits := takeWhile_stop isDigit ((c :: tail).drop width) rest short
  have unsigned : (c :: tail ++ rest).drop width = (c :: tail).drop width ++ rest :=
    List.drop_append_of_le_length narrow
  obtain ⟨d,more,behind⟩ := List.exists_cons_of_ne_nil short
  have inside : (((c :: tail).drop width).takeWhile isDigit).length ≤ ((c :: tail).drop width).length :=
    (List.takeWhile_prefix _).length_le
  have both : ((c :: tail).drop width ++ rest).drop (((c :: tail).drop width).takeWhile isDigit).length =
      d :: (more ++ rest) := by
    rw [List.drop_append_of_le_length inside,behind]
    rfl
  rw [← unsigned,List.drop_drop] at both
  rw [List.drop_drop] at behind
  obtain ⟨passed,first⟩ := extractInt_stop before text true prior (c :: tail) _ (d :: more) negative width seen
    blank signed rfl behind (List.cons_ne_nil d more)
  obtain ⟨others,second⟩ := extractInt_stop other (text ++ rest) false prior (c :: tail ++ rest) _
    (d :: (more ++ rest)) negative width (by rw [spaces,skipped]) (by simp) (signs.trans signed)
    (by rw [unsigned,digits]) both (List.cons_ne_nil d _)
  rw [first,second]
  by_cases none : ((c :: tail).drop width).takeWhile isDigit = []
  · left
    rw [if_pos none]
    exact dead _ (by simp [good])
  · rw [if_neg none,if_neg none]
    rcases store (if negative then -(number (((c :: tail).drop width).takeWhile isDigit) : Int)
      else number (((c :: tail).drop width).takeWhile isDigit)) with ⟨value,_ | _⟩
    · exact .inl (dead _ (by simp [good]))
    · exact .inr (.intro _ _ more rest)

theorem readRow_shown {s sound next : IStream} {row : Bytes × Int32} (prior : Int32) (shown : Shown s sound)
    (found : readRow prior s = some (row,next)) :
    ∃ cnt later, readRow prior sound = some ((row.1,cnt),later) ∧ (next.good = false ∨ Shown next later) := by
  obtain ⟨before,other,text,rest⟩ := shown
  cases read : (ReadLine (ready before text true) MAX_URL_LEN tab).2 with
  | none =>
    rw [(readRow_none _ _).mpr read] at found
    cases found
  | some url =>
    rw [readRow_some _ _ url read] at found
    cases found
    obtain ⟨passed,more,behind,first,second⟩ := ReadLine_shown before other text rest url read
    refine ⟨_,_,readRow_some prior _ url (by rw [second]),?_⟩
    rw [first,second]
    exact extractInt_shown passed behind more rest prior

/-- The URLs read from a failing device are the first of those on the sound one. -/
theorem rowsIn_shown (prior : Int32) (s sound : IStream) (shown : s.good = false ∨ Shown s sound) :
    (rowsIn prior s).map Prod.fst <+: (rowsIn prior sound).map Prod.fst := by
  generalize size : s.after.length = count
  induction count using Nat.strongRecOn generalizing s sound with
  | ind count ih =>
    cases found : readRow prior s with
    | none =>
      rw [rowsIn_none found]
      exact List.nil_prefix
    | some pair =>
      obtain ⟨row,next⟩ := pair
      rcases shown with dead | shown
      · rw [readRow_dead prior s dead] at found
        cases found
      · obtain ⟨cnt,later,again,kept⟩ := readRow_shown prior shown found
        rw [rowsIn_some found,rowsIn_some again,List.map_cons,List.map_cons,List.prefix_cons_inj]
        have taken := readRow_taken prior s row next found
        exact ih _ (by omega) next later kept rfl

/-- A file that a failing device cannot show in full has lost a row or changed the
count of one. -/
theorem rowsIn_counts (prior : Int32) (s sound : IStream) (shown : s.good = false ∨ Shown s sound)
    (same : (rowsIn prior s).map Prod.snd = (rowsIn prior sound).map Prod.snd) :
    rowsIn prior s = rowsIn prior sound := by
  have urls := rowsIn_shown prior s sound shown
  have length := congrArg List.length same
  rw [List.length_map,List.length_map] at length
  have firsts := urls.eq_of_length (by rw [List.length_map,List.length_map,length])
  rw [← List.zip_unzip (rowsIn prior s),← List.zip_unzip (rowsIn prior sound),List.unzip_eq_map,List.unzip_eq_map]
  dsimp only
  rw [firsts,same]

end TopNFreq
