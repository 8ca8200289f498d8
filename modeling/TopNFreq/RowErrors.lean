import TopNFreq.RowFormat

/-! A row is really read exactly where the stream begins with a whole row: the
result of the extraction and what stands behind the number are not looked at. -/
namespace TopNFreq
open Library.Text Library.InputStream IStream FileManager

namespace FileMerger

/-- An answer true: a URL, a tab and an integer with the end of their line have been
read, and just these are handed out. An answer false: the pool is as before. -/
structure ReallyRead (text : Bytes) (pool : Arena) (answer : Bool × IStream × Arena × ResultTuple) : Prop where
  delivered : answer.1 = true → ∃ url numeral z stop,
    text = url ++ tab :: (numeral ++ (stop ++ answer.2.1.after)) ∧ url ≠ [] ∧ tab ∉ url ∧ Numeral numeral z ∧
      (stop = [] ∨ stop = [newline]) ∧ answer.2.2.2.str.toString answer.2.2.1.memory = url ∧
      answer.2.2.2.cnt.toInt = z
  refused : answer.1 = false →
    answer.2.2.1.chunks = pool.chunks ∧ answer.2.2.1.mem_tracker_ = pool.mem_tracker_

/-- The text begins with a whole row: a URL that fits in the buffer, a tab, an integer in
the range of `int`, and the end of the line or of the text. -/
def BeginsWithRow (text : Bytes) : Prop :=
  ∃ url numeral z more, text = url ++ tab :: (numeral ++ more) ∧ url ≠ [] ∧ url.length < MAX_URL_LEN ∧
    tab ∉ url ∧ Numeral numeral z ∧ Int32.minValue.toInt ≤ z ∧ z ≤ Int32.maxValue.toInt ∧
    ∀ b ∈ more.head?, b = newline

theorem nextLine_blank (text : Bytes) : nextLine MAX_URL_LEN tab text = none ↔ ∀ b ∈ text, b = tab := by
  have blank := List.dropWhile_eq_nil_iff (p := fun b => decide (b = tab)) (l := text)
  simp only [decide_eq_true_eq] at blank
  rw [← blank,nextLine]
  split <;> rename_i shape <;> simp [shape]

section Behind
variable (before : Bytes) {rest text : Bytes} {z : Int} (numeral : Numeral text z) (prior : Int32)

include numeral

theorem count_fits (fits : (store z).2 = true) (stop : ∀ b ∈ rest.head?, isDigit b = false) :
    ((ready before (text ++ rest) false).extractInt prior).2.toInt = z ∧
      ((ready before (text ++ rest) false).extractInt prior).1.get.1.after = rest.drop 1 := by
  obtain ⟨passed,read⟩ := extractInt_numeral before rest numeral prior stop
  rw [read]
  simp only [fits,if_true]
  refine ⟨store_fits z fits,?_⟩
  cases rest with
  | nil => rfl
  | cons b more => rfl

theorem count_beyond (beyond : (store z).2 = false) (stop : ∀ b ∈ rest.head?, isDigit b = false) :
    ((ready before (text ++ rest) false).extractInt prior).1.get.1.after = rest := by
  obtain ⟨passed,read⟩ := extractInt_numeral before rest numeral prior stop
  rw [read]
  simp only [beyond,Bool.false_eq_true,if_false]
  rw [get_dead _ (by simp [good])]
  cases rest with
  | nil => rfl
  | cons b more => rfl

end Behind

variable (env : Platform) {in_ : IStream} (pool : Arena) (res : ResultTuple) {text : Bytes}

theorem NextResultTupleInFile_url (holds : Holds in_ text) (url more : Bytes) (nonempty : url ≠ [])
    (short : url.length < MAX_URL_LEN) (clean : tab ∉ url) (shape : text = url ++ tab :: more)
    (further : more ≠ []) :
    ∃ before, NextResultTupleInFile env in_ pool res =
      (true,((ready before more false).extractInt res.cnt).1.get.1,(pool.deposit env url).2,
        {res with
          str := (pool.deposit env url).1
          cnt := ((ready before more false).extractInt res.cnt).2}) := by
  obtain ⟨read,left⟩ := ReadLine_holds in_ text MAX_URL_LEN tab (by decide) holds
  rw [shape,nextLine_row url more nonempty short clean] at read left
  simp only [Option.map_some,Option.getD_some] at read left
  rcases NextResultTupleInFile_cases env in_ pool res with ⟨nothing,_⟩ | ⟨found,same,result⟩
  · rw [read] at nothing
    cases nothing
  · rw [read] at same
    obtain rfl := Option.some.inj same
    rcases left.cases with ⟨before,alive⟩ | ⟨_,empty⟩
    · rw [alive] at result
      exact ⟨before,result⟩
    · exact absurd empty further

theorem reallyRead_blank (holds : Holds in_ text) (blank : ∀ b ∈ text, b = tab) :
    ReallyRead text pool (NextResultTupleInFile env in_ pool res) := by
  obtain ⟨read,_⟩ := ReadLine_holds in_ text MAX_URL_LEN tab (by decide) holds
  rw [(nextLine_blank text).mpr blank,Option.map_none] at read
  rcases NextResultTupleInFile_cases env in_ pool res with ⟨_,result⟩ | ⟨url,found,_⟩
  · rw [result]
    refine ⟨?_,fun _ => ⟨rfl,rfl⟩⟩
    intro delivered
    cases delivered
  · rw [read] at found
    cases found

theorem reallyRead_row (holds : Holds in_ text) (row : BeginsWithRow text) :
    ReallyRead text pool (NextResultTupleInFile env in_ pool res) := by
  obtain ⟨url,digits,z,more,shape,nonempty,short,clean,numeral,low,high,ends⟩ := row
  have stop : ∀ b ∈ more.head?, isDigit b = false := by
    intro b first
    rw [ends b first]
    rfl
  have fits : (store z).2 = true := by
    unfold store
    rw [if_neg (not_lt.mpr low),if_neg (not_lt.mpr high)]
  obtain ⟨before,result⟩ := NextResultTupleInFile_url env pool res holds url (digits ++ more) nonempty short clean
    shape (List.append_ne_nil_of_left_ne_nil numeral.nonempty more)
  obtain ⟨value,left⟩ := count_fits before numeral res.cnt fits stop
  rw [result]
  refine ⟨fun _ => ⟨url,digits,z,more.take 1,?_,nonempty,clean,numeral,?_,?_,value⟩,?_⟩
  · rw [left,List.take_append_drop]
    exact shape
  · cases more with
    | nil => exact .inl rfl
    | cons b rest =>
      rw [ends b rfl]
      exact .inr rfl
  · exact Arena.deposit_toString env pool url
  · intro refused
    cases refused

theorem longest_numeral {numeral : Bytes} {z : Int} (shape : Numeral numeral z) (rest : Bytes) :
    ∃ whole value behind, Numeral whole value ∧ numeral ++ rest = whole ++ behind ∧
      (∀ b ∈ behind.head?, isDigit b = false) ∧ behind.length ≤ rest.length ∧
      (behind.length = rest.length → whole = numeral ∧ behind = rest) := by
  obtain ⟨value,longer⟩ := shape.extend (rest.takeWhile isDigit) fun b member => List.mem_takeWhile_imp member
  have parts := List.takeWhile_append_dropWhile (p := isDigit) (l := rest)
  refine ⟨numeral ++ rest.takeWhile isDigit,value,rest.dropWhile isDigit,longer,?_,?_,?_,?_⟩
  · rw [List.append_assoc,parts]
  · intro b first
    have head := List.head?_dropWhile_not isDigit rest
    rw [Option.mem_def.mp first] at head
    exact head
  · exact (List.dropWhile_suffix isDigit).length_le
  · intro same
    have unchanged := (List.dropWhile_suffix isDigit).eq_of_length same
    have none : rest.takeWhile isDigit = [] := by
      rw [unchanged] at parts
      exact List.append_left_eq_self.mp parts
    rw [none,List.append_nil]
    exact ⟨rfl,unchanged⟩

theorem row_ended (holds : Holds in_ text) (url digits rest : Bytes) (z : Int) (nonempty : url ≠ [])
    (short : url.length < MAX_URL_LEN) (clean : tab ∉ url) (numeral : Numeral digits z)
    (shape : text = url ++ tab :: (digits ++ rest))
    (left : (NextResultTupleInFile env in_ pool res).2.1.after = rest)
    (value : (NextResultTupleInFile env in_ pool res).2.2.2.cnt.toInt = z) : rest = [] := by
  obtain ⟨before,result⟩ := NextResultTupleInFile_url env pool res holds url (digits ++ rest) nonempty short clean
    shape (List.append_ne_nil_of_left_ne_nil numeral.nonempty rest)
  rw [result] at left value
  dsimp only at left value
  obtain ⟨whole,number,behind,longer,same,stop,fewer,unchanged⟩ := longest_numeral numeral rest
  rw [same] at left value
  cases fits : (store number).2 with
  | true =>
    rw [(count_fits before longer res.cnt fits stop).2] at left
    have lengths := congrArg List.length left
    rw [List.length_drop] at lengths
    exact List.eq_nil_of_length_eq_zero (by omega)
  | false =>
    rw [count_beyond before longer res.cnt fits stop] at left
    obtain ⟨rfl,rfl⟩ := unchanged (congrArg List.length left)
    cases kept : (store z).2 with
    | true =>
      have lengths := congrArg List.length (count_fits before numeral res.cnt kept stop).2
      rw [count_beyond before longer res.cnt fits stop,List.length_drop] at lengths
      exact List.eq_nil_of_length_eq_zero (by omega)
    | false => exact absurd value (store_beyond z kept _)

theorem row_of_reallyRead (holds : Holds in_ text)
    (really : ReallyRead text pool (NextResultTupleInFile env in_ pool res)) :
    (∀ b ∈ text, b = tab) ∨ BeginsWithRow text := by
  obtain ⟨read,_⟩ := ReadLine_holds in_ text MAX_URL_LEN tab (by decide) holds
  rcases NextResultTupleInFile_cases env in_ pool res with ⟨nothing,_⟩ | ⟨found,same,result⟩
  · rw [read,Option.map_eq_none_iff] at nothing
    exact .inl ((nextLine_blank text).mp nothing)
  right
  have short := (ReadLine_some in_ MAX_URL_LEN tab (by decide) found same).2.1
  obtain ⟨url,digits,z,stop,shape,nonempty,clean,numeral,ends,string,value⟩ := really.delivered (by rw [result])
  have handed : found = url := by
    rw [← string,result]
    exact (Arena.deposit_toString env pool found).symm
  subst handed
  have low := (NextResultTupleInFile env in_ pool res).2.2.2.cnt.le_toInt
  have high := (NextResultTupleInFile env in_ pool res).2.2.2.cnt.toInt_lt
  refine ⟨found,digits,z,_,shape,nonempty,short,clean,numeral,?_,?_,?_⟩
  · rw [Int32.toInt_minValue,← value]
    omega
  · rw [Int32.toInt_maxValue,← value]
    omega
  rcases ends with rfl | rfl
  · have ended := row_ended env pool res holds found digits _ z nonempty short clean numeral shape rfl value
    rw [ended]
    intro b first
    cases first
  · intro b first
    exact (Option.some.inj first).symm

/-- A row is delivered only when it was really read, exactly for the texts that begin
with a whole row or hold nothing but tabs. -/
theorem delivered_iff_read (holds : Holds in_ text) :
    ReallyRead text pool (NextResultTupleInFile env in_ pool res) ↔ (∀ b ∈ text, b = tab) ∨ BeginsWithRow text := by
  constructor
  · exact row_of_reallyRead env pool res holds
  · rintro (blank | row)
    · exact reallyRead_blank env pool res holds blank
    · exact reallyRead_row env pool res holds row

/-- The row `a`, tab, `12`, newline and the begin of a next one. -/
theorem delivered_iff_read_twelve :
    ReallyRead [97,9,49,50,10,98] (Arena.new 1024) (NextResultTupleInFile Env.reference.toPlatform
      (.opened [97,9,49,50,10,98] none) (Arena.new 1024) default) := by
  refine (delivered_iff_read Env.reference.toPlatform (Arena.new 1024) default (holds_opened _)).mpr (.inr ?_)
  have digits : ∀ b ∈ ([49,50] : Bytes), isDigit b = true := by simp [isDigit]
  have twelve : Numeral [49,50] 12 := .plain _ (List.cons_ne_nil _ _) digits
  refine ⟨[97],[49,50],12,[10,98],rfl,List.cons_ne_nil _ _,by simp [MAX_URL_LEN],by decide,twelve,
    by decide,by decide,?_⟩
  intro b first
  exact (Option.some.inj first).symm

/-- A file that ends behind the URL `a`: the answer is true, with the count 7 that the
tuple held before. -/
theorem truncated_row_delivered :
    ¬ ReallyRead [97] (Arena.new 1024) (NextResultTupleInFile Env.reference.toPlatform (.opened [97] none)
      (Arena.new 1024) ⟨⟨nullptr,0⟩,7,0⟩) ∧
    (NextResultTupleInFile Env.reference.toPlatform (.opened [97] none) (Arena.new 1024)
      ⟨⟨nullptr,0⟩,7,0⟩).2.2.2.cnt = 7 := by
  refine ⟨fun really => ?_,by decide⟩
  obtain ⟨url,numeral,z,stop,shape,nonempty,_⟩ := really.delivered (by decide)
  have lengths := congrArg List.length shape
  have positive := List.length_pos_iff.mpr nonempty
  simp only [List.length_append,List.length_cons,List.length_nil] at lengths
  omega

end FileMerger
end TopNFreq
