import TopNFreq.FileMerger
import TopNFreq.Lines
import TopNFreq.Ownership

/-! The text format of the spill files: what `WriteResultTuple` writes and what
`NextResultTupleInFile` makes of it. -/
namespace TopNFreq
open Library.Text Library.InputStream IStream FileManager

def rowBytes (r : Bytes × Int32) : Bytes := r.1 ++ tab :: (decimalInt r.2.toInt ++ [newline])

structure RowOk (r : Bytes × Int32) : Prop where
  nonempty : r.1 ≠ []
  short : r.1.length < MAX_URL_LEN
  clean : tab ∉ r.1
  positive : 0 < r.2.toInt

/-- What a row needs to be read back; its count may have wrapped around. -/
structure RowReadable (r : Bytes × Int32) : Prop where
  nonempty : r.1 ≠ []
  short : r.1.length < MAX_URL_LEN
  clean : tab ∉ r.1

theorem RowOk.readable {r : Bytes × Int32} (ok : RowOk r) : RowReadable r := ⟨ok.nonempty,ok.short,ok.clean⟩

/-- A text is a sequence of rows; the final newline may be missing. -/
inductive RowText : List (Bytes × Int32) → Bytes → Prop
  | nil : RowText [] []
  | last (r) : RowText [r] (r.1 ++ tab :: decimalInt r.2.toInt)
  | cons (r rows text) (rest : RowText rows text) : RowText (r :: rows) (rowBytes r ++ text)

theorem rowText_flatMap (rows : List (Bytes × Int32)) : RowText rows (rows.flatMap rowBytes) := by
  induction rows with
  | nil => exact .nil
  | cons r rows ih => exact .cons r rows _ ih

theorem RowText.nil_text {text : Bytes} (shape : RowText [] text) : text = [] := by
  cases shape
  rfl

def ResultTuple.view (mem : Memory) (t : ResultTuple) : Bytes × Int32 := (t.str.toString mem,t.cnt)

theorem WriteResultTuple_ok (env : Env) (mem : Memory) (disk : Disk) (mgr : FileManager)
    (res : ResultTuple) (name content : Bytes) (sound : env.faults.writeRow mgr.rows = false)
    (opened : mgr.out_ = ⟨some name,false⟩) (present : disk name = some content) :
    mgr.WriteResultTuple env mem disk res =
      (true,Function.update disk name (some (content ++ rowBytes (res.view mem))),
        {mgr with rows := mgr.rows + 1, handed := appendLast mgr.handed (res.view mem)}) := by
  simp only [WriteResultTuple,sound,opened,OStream.put,Bool.false_eq_true,if_false,present,
    Option.getD_some,Function.update_self,Function.update_idem,List.append_assoc]
  rfl

theorem nextLine_row (url more : Bytes) (nonempty : url ≠ []) (short : url.length < MAX_URL_LEN)
    (clean : tab ∉ url) : nextLine MAX_URL_LEN tab (url ++ tab :: more) = some (url,more) := by
  obtain ⟨c,tail,rfl⟩ := List.exists_cons_of_ne_nil nonempty
  have different : c ≠ tab := fun same => clean (by simp [same])
  have start : (c :: tail ++ tab :: more).dropWhile (· = tab) = c :: (tail ++ tab :: more) := by
    simp [different]
  have taken : (c :: tail ++ tab :: more).takeWhile (· ≠ tab) = c :: tail := by
    rw [List.takeWhile_append_of_pos fun b member => by
      simpa using fun same : b = tab => clean (same ▸ member)]
    simp
  have bound : (c :: tail).length ≤ MAX_URL_LEN - 1 := Nat.le_sub_one_of_lt short
  have buffer : line MAX_URL_LEN tab (c :: (tail ++ tab :: more)) = c :: tail := by
    rw [line,← List.cons_append,taken,List.take_of_length_le bound]
  simp only [nextLine,start,buffer]
  simp

theorem nextLine_nil (max_len : Nat) (delimiter : Byte) : nextLine max_len delimiter [] = none := rfl

namespace FileMerger

theorem NextResultTupleInFile_cases (env : Platform) (in_ : IStream) (pool : Arena) (res : ResultTuple) :
    (ReadLine in_ MAX_URL_LEN tab).2 = none ∧
      NextResultTupleInFile env in_ pool res = (false,(ReadLine in_ MAX_URL_LEN tab).1,pool,res) ∨
    ∃ url, (ReadLine in_ MAX_URL_LEN tab).2 = some url ∧
      NextResultTupleInFile env in_ pool res =
        (true,((ReadLine in_ MAX_URL_LEN tab).1.extractInt res.cnt).1.get.1,(pool.deposit env url).2,
          {res with
            str := (pool.deposit env url).1
            cnt := ((ReadLine in_ MAX_URL_LEN tab).1.extractInt res.cnt).2}) := by
  rcases read : ReadLine in_ MAX_URL_LEN tab with ⟨after,_ | url⟩
  · exact .inl ⟨rfl,by simp only [NextResultTupleInFile,read]⟩
  · exact .inr ⟨url,rfl,by simp only [NextResultTupleInFile,read]; rfl⟩

theorem NextResultTupleInFile_after (env : Platform) (in_ : IStream) (pool : Arena) (res : ResultTuple)
    (read : (NextResultTupleInFile env in_ pool res).1 = true) :
    (NextResultTupleInFile env in_ pool res).2.1.after.length < in_.after.length := by
  rcases NextResultTupleInFile_cases env in_ pool res with ⟨_,same⟩ | ⟨url,found,same⟩
  · simp [same] at read
  · rw [same]
    have taken := (ReadLine_some in_ MAX_URL_LEN tab (by decide) url found).2.2.2
    have kept := extractInt_after_le (ReadLine in_ MAX_URL_LEN tab).1 res.cnt
    have last := get_after_le ((ReadLine in_ MAX_URL_LEN tab).1.extractInt res.cnt).1
    dsimp only
    omega

theorem NextResultTupleInFile_after_le (env : Platform) (in_ : IStream) (pool : Arena) (res : ResultTuple) :
    (NextResultTupleInFile env in_ pool res).2.1.after.length ≤ in_.after.length := by
  rcases NextResultTupleInFile_cases env in_ pool res with ⟨_,same⟩ | ⟨url,found,same⟩
  · rw [same]
    exact ReadLine_after_le in_ MAX_URL_LEN tab (by decide)
  · exact (NextResultTupleInFile_after env in_ pool res (by rw [same])).le

theorem NextResultTupleInFile_end (env : Platform) (in_ : IStream) (pool : Arena) (res : ResultTuple)
    (holds : Holds in_ []) :
    ∃ left, NextResultTupleInFile env in_ pool res = (false,left,pool,res) ∧ Holds left [] := by
  obtain ⟨nothing,left⟩ := ReadLine_holds in_ [] MAX_URL_LEN tab (by decide) holds
  rcases NextResultTupleInFile_cases env in_ pool res with ⟨_,same⟩ | ⟨url,found,_⟩
  · exact ⟨_,same,left⟩
  · simp [nothing,nextLine_nil] at found

private theorem count_read (before more : Bytes) (cnt prior : Int32) (stop : ∀ b ∈ more.head?, isDigit b = false) :
    ∃ passed, (ready before (decimalInt cnt.toInt ++ more) false).extractInt prior =
      (if more = [] then (ready passed [] false).atEnd else ready passed more false,cnt) := by
  obtain ⟨passed,read⟩ := extractInt_numeral before more (decimalInt_numeral cnt.toInt) prior stop
  rw [store_int] at read
  exact ⟨passed,read⟩

theorem NextResultTupleInFile_row (env : Platform) (in_ : IStream) (pool : Arena) (res : ResultTuple)
    (r : Bytes × Int32) (rows : List (Bytes × Int32)) (text : Bytes) (ok : RowReadable r)
    (shape : RowText (r :: rows) text) (holds : Holds in_ text) :
    ∃ left more, NextResultTupleInFile env in_ pool res =
        (true,left,(pool.deposit env r.1).2,{res with str := (pool.deposit env r.1).1, cnt := r.2}) ∧
      Holds left more ∧ RowText rows more := by
  obtain ⟨tail,rfl,after,stop,digest⟩ : ∃ tail, text = r.1 ++ tab :: (decimalInt r.2.toInt ++ tail) ∧
      ∃ more, (∀ b ∈ tail.head?, isDigit b = false) ∧
        RowText rows more ∧ (tail = [] ∧ more = [] ∨ tail = newline :: more) := by
    cases shape with
    | last => exact ⟨[],by simp,[],by simp,.nil,.inl ⟨rfl,rfl⟩⟩
    | cons _ _ more rest =>
      exact ⟨newline :: more,by simp [rowBytes],more,by simp [newline,isDigit],rest,.inr rfl⟩
  have item := nextLine_row r.1 (decimalInt r.2.toInt ++ tail) ok.nonempty ok.short ok.clean
  obtain ⟨read,left⟩ := ReadLine_holds in_ _ MAX_URL_LEN tab (by decide) holds
  rw [item] at read left
  simp only [Option.map_some,Option.getD_some] at read left
  rcases NextResultTupleInFile_cases env in_ pool res with ⟨nothing,_⟩ | ⟨url,found,same⟩
  · rw [read] at nothing
    cases nothing
  · rw [read] at found
    obtain rfl := Option.some.inj found
    rcases left.cases with ⟨before,alive⟩ | ⟨_,empty⟩
    · rw [alive] at same
      obtain ⟨passed,count⟩ := count_read before tail r.2 res.cnt stop
      rw [count] at same
      refine ⟨_,after,same,?_,digest.1⟩
      rcases digest.2 with ⟨rfl,rfl⟩ | rfl
      · simp only [if_true]
        exact ⟨rfl,.inr ⟨rfl,rfl⟩⟩
      · simp only [if_neg (List.cons_ne_nil newline after),get_ready_cons]
        exact holds_ready _ after
    · have digits := List.append_eq_nil_iff.mp empty
      exact absurd digits.1 (decimalInt_numeral r.2.toInt).nonempty

end FileMerger
end TopNFreq
