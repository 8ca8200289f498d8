import TopNFreq.GenFiles
import TopNFreq.RunRefinement

/-! The answer file of the generator, as the part under `__main__` reads it, and the
lines that the program prints, which have the same format. -/
namespace TopNFreq
open Library.Text

namespace GenData

/-- `line.strip()` -/
def strip (line : Bytes) : Bytes := ((line.dropWhile isSpace).reverse.dropWhile isSpace).reverse

/-- `split()`: the fields between blanks; none is empty. -/
def split (line : Bytes) : List Bytes := (line.splitOnP isSpace).filter (· ≠ [])

/-- `int(cnt)`, `none` for the exception. -/
def int (cnt : Bytes) : Option Int :=
  let (sign,digits) := match cnt with
    | [] => ((1 : Int),[])
    | b :: rest => if b = minus then (-1,rest) else if b = plus then (1,rest) else (1,cnt)
  if digits ≠ [] ∧ digits.all isDigit then some (sign * number digits) else none

/-- `res[url] = cnt`. The items stand in the order of reading, a Python 2 dictionary has none. -/
def setItem (res : List (Bytes × Int)) (url : Bytes) (cnt : Int) : List (Bytes × Int) :=
  if url ∈ res.map Prod.fst then res.map fun item => if item.1 = url then (url,cnt) else item
  else res ++ [(url,cnt)]

/-- `url, cnt = line.strip().split()`, an exception unless there are two fields. -/
def readAnswerLine (res : List (Bytes × Int)) (line : Bytes) : Option (List (Bytes × Int)) :=
  match split (strip line) with
  | [url,cnt] => (int cnt).map (setItem res url)
  | _ => none

/-- The lines of `for line in ans`, without their newlines. -/
def answerLines (text : Bytes) : List Bytes :=
  let pieces := text.splitOn newline
  if pieces.getLastD [] = [] then pieces.dropLast else pieces

def readAnswer (text : Bytes) : Option (List (Bytes × Int)) := (answerLines text).foldlM readAnswerLine []

/-- A URL that a field of the answer file can be. -/
structure Plain (url : Bytes) : Prop where
  nonempty : url ≠ []
  solid : ∀ b ∈ url, isSpace b = false

theorem mem_splitOnP {p : Byte → Bool} (text : Bytes) :
    ∀ part ∈ text.splitOnP p, ∀ b ∈ part, p b = false := by
  induction text with
  | nil => simp
  | cons c rest ih =>
    rw [List.splitOnP_cons_eq_if_modifyHead]
    split
    · intro part member
      rcases List.mem_cons.mp member with rfl | later
      · simp
      · exact ih part later
    · rename_i other
      cases shape : rest.splitOnP p with
      | nil => exact absurd shape (List.splitOnP_ne_nil p rest)
      | cons first parts =>
        rw [shape] at ih
        intro part member
        rw [List.modifyHead_cons] at member
        rcases List.mem_cons.mp member with rfl | later
        · intro b inside
          rcases List.mem_cons.mp inside with rfl | tail
          · exact Bool.eq_false_iff.mpr other
          · exact ih first List.mem_cons_self b tail
        · exact ih part (List.mem_cons_of_mem _ later)

theorem plain_split {line field : Bytes} (member : field ∈ split line) : Plain field := by
  obtain ⟨inside,nonempty⟩ := List.mem_filter.mp member
  exact ⟨of_decide_eq_true nonempty,mem_splitOnP line field inside⟩

/-- What has been read: each URL once, and none with a blank in it. -/
structure WellFormed (res : List (Bytes × Int)) : Prop where
  distinct : (res.map Prod.fst).Nodup
  plain : ∀ item ∈ res, Plain item.1

theorem WellFormed.set {res : List (Bytes × Int)} (formed : WellFormed res) (url : Bytes) (cnt : Int) (plain : Plain url) :
    WellFormed (setItem res url cnt) := by
  unfold setItem
  split
  · have keys : (res.map fun item => if item.1 = url then (url,cnt) else item).map Prod.fst = res.map Prod.fst := by
      rw [List.map_map]
      refine List.map_congr_left fun item _ => ?_
      rw [Function.comp_apply]
      split
      · rename_i same
        exact same.symm
      · rfl
    refine ⟨keys ▸ formed.distinct,fun item member => ?_⟩
    obtain ⟨old,inside,rfl⟩ := List.mem_map.mp member
    split
    · exact plain
    · exact formed.plain old inside
  · rename_i fresh
    refine ⟨?_,fun item member => ?_⟩
    · rw [List.map_append,List.nodup_append]
      refine ⟨formed.distinct,List.nodup_singleton _,fun a member b last => ?_⟩
      rw [List.map_singleton,List.mem_singleton] at last
      rintro rfl
      rw [last] at member
      exact fresh member
    · rcases List.mem_append.mp member with old | last
      · exact formed.plain item old
      · exact List.mem_singleton.mp last ▸ plain

/-- Whatever is accepted is well formed. -/
theorem readAnswer_formed (text : Bytes) (res : List (Bytes × Int)) (read : readAnswer text = some res) :
    WellFormed res := by
  have run (lines : List Bytes) (before : List (Bytes × Int)) (formed : WellFormed before)
      (folded : lines.foldlM readAnswerLine before = some res) : WellFormed res := by
    induction lines generalizing before with
    | nil => exact Option.some.inj folded ▸ formed
    | cons line lines ih =>
      rw [List.foldlM_cons,Option.bind_eq_bind,Option.bind_eq_some_iff] at folded
      obtain ⟨next,first,later⟩ := folded
      apply ih next _ later
      unfold readAnswerLine at first
      split at first
      · rename_i url cnt fields
        obtain ⟨number,_,rfl⟩ := Option.map_eq_some_iff.mp first
        apply formed.set url number
        apply @plain_split (strip line)
        rw [fields]
        exact List.mem_cons_self
      · cases first
  exact run (answerLines text) [] ⟨List.nodup_nil,fun item member => absurd member List.not_mem_nil⟩ read

/-! ## Lines that are printed -/

theorem int_decimal (z : Int) : int (decimalInt z) = some z := by
  have digits := isDigit_decimal z.natAbs
  have nonempty := decimal_ne_nil z.natAbs
  have all : (decimal z.natAbs).all isDigit = true := List.all_eq_true.mpr digits
  have value := number_decimal z.natAbs
  unfold decimalInt
  generalize decimal z.natAbs = text at digits nonempty all value
  split
  · simp only [int,if_true,nonempty,all,ne_eq,not_false_eq_true,and_self,value]
    congr 1
    omega
  · cases text with
    | nil => exact absurd rfl nonempty
    | cons b rest =>
      have digit := digits b List.mem_cons_self
      have sign := isDigit_ne b minus digit rfl
      have other := isDigit_ne b plus digit rfl
      simp only [int,sign,other,if_false,nonempty,all,ne_eq,not_false_eq_true,and_self,if_true,value]
      congr 1
      omega

theorem decimalInt_solid (z : Int) : ∀ b ∈ decimalInt z, isSpace b = false := by
  have digit (b : Byte) (isDigitB : isDigit b = true) : isSpace b = false := by
    simp only [isDigit,isSpace,Bool.and_eq_true,decide_eq_true_eq,Bool.or_eq_false_iff,Bool.and_eq_false_iff,
      decide_eq_false_iff_not] at isDigitB ⊢
    omega
  intro b member
  unfold decimalInt at member
  split at member
  · rcases List.mem_cons.mp member with rfl | later
    · rfl
    · exact digit b (isDigit_decimal _ b later)
  · exact digit b (isDigit_decimal _ b member)

theorem decimalInt_ne_nil (z : Int) : decimalInt z ≠ [] := by
  unfold decimalInt
  split
  · exact List.cons_ne_nil _ _
  · exact decimal_ne_nil _

theorem dropWhile_solid {front : Bytes} (nonempty : front ≠ []) (solid : ∀ b ∈ front, isSpace b = false) (more : Bytes) :
    (front ++ more).dropWhile isSpace = front ++ more := by
  cases front with
  | nil => exact absurd rfl nonempty
  | cons b rest => exact List.dropWhile_cons_of_neg (Bool.eq_false_iff.mp (solid b List.mem_cons_self))

/-- A printed line has two fields, the URL and the count. -/
theorem split_resultLine (r : Bytes × Int32) (plain : Plain r.1) :
    split (strip (resultLine r)) = [r.1,decimalInt r.2.toInt] := by
  have digits := decimalInt_solid r.2.toInt
  have digit := decimalInt_ne_nil r.2.toInt
  have stripped : strip (resultLine r) = resultLine r := by
    have front : (resultLine r).dropWhile isSpace = resultLine r := dropWhile_solid plain.nonempty plain.solid _
    have shape : (resultLine r).reverse = (decimalInt r.2.toInt).reverse ++ (r.1 ++ [tab]).reverse := by
      rw [← List.reverse_append,List.append_assoc]
      rfl
    have back : (resultLine r).reverse.dropWhile isSpace = (resultLine r).reverse := by
      rw [shape]
      exact dropWhile_solid (List.reverse_ne_nil_iff.mpr digit) (fun b member => digits b (List.mem_reverse.mp member)) _
    rw [strip,front,back,List.reverse_reverse]
  rw [stripped,split,resultLine,List.splitOnP_append_cons_of_forall_mem plain.solid tab rfl,
    List.splitOnP_eq_singleton digits]
  simp [plain.nonempty,digit]

theorem readAnswerLine_result (res : List (Bytes × Int)) (r : Bytes × Int32) (plain : Plain r.1)
    (fresh : r.1 ∉ res.map Prod.fst) :
    readAnswerLine res (resultLine r) = some (res ++ [(r.1,r.2.toInt)]) := by
  rw [readAnswerLine,split_resultLine r plain]
  simp only [int_decimal,Option.map_some,setItem,if_neg fresh]

theorem readAnswer_fold (rows : List (Bytes × Int32)) (res : List (Bytes × Int)) (plain : ∀ r ∈ rows, Plain r.1)
    (distinct : (res.map Prod.fst ++ rows.map Prod.fst).Nodup) :
    (rows.map resultLine).foldlM readAnswerLine res = some (res ++ exactCounts rows) := by
  induction rows generalizing res with
  | nil => simp [exactCounts]
  | cons r rows ih =>
    have fresh : r.1 ∉ res.map Prod.fst := by
      intro member
      exact (List.nodup_append.mp distinct).2.2 r.1 member r.1 (List.mem_cons_self ..) rfl
    rw [List.map_cons,List.foldlM_cons,readAnswerLine_result res r (plain r List.mem_cons_self) fresh]
    have later := ih (res ++ [(r.1,r.2.toInt)]) (fun other among => plain other (List.mem_cons_of_mem _ among)) (by
      rw [List.map_append,List.append_assoc]
      exact distinct)
    rw [List.append_assoc] at later
    exact later

def unlines (lines : List Bytes) : Bytes := lines.flatMap fun line => line ++ [newline]

theorem splitOn_unlines (lines : List Bytes) (clean : ∀ line ∈ lines, newline ∉ line) :
    (unlines lines).splitOn newline = lines ++ [[]] := by
  induction lines with
  | nil => rfl
  | cons line lines ih =>
    have rest := ih fun other among => clean other (List.mem_cons_of_mem _ among)
    rw [unlines,List.flatMap_cons,List.append_assoc,List.singleton_append,
      List.splitOn_append_cons_self_of_not_mem (clean line List.mem_cons_self),← unlines,rest]
    rfl

theorem answerLines_unlines (lines : List Bytes) (clean : ∀ line ∈ lines, newline ∉ line) :
    answerLines (unlines lines) = lines := by
  rw [answerLines,splitOn_unlines lines clean]
  simp

theorem resultLine_clean (r : Bytes × Int32) (plain : Plain r.1) : newline ∉ resultLine r := by
  intro member
  rcases List.mem_append.mp member with url | rest
  · exact Bool.noConfusion (plain.solid newline url)
  · rcases List.mem_cons.mp rest with same | count
    · exact absurd same (by decide)
    · exact Bool.noConfusion (decimalInt_solid _ newline count)

/-- What is printed for some results is an answer file that says the same. -/
theorem readAnswer_results (rows : List (Bytes × Int32)) (plain : ∀ r ∈ rows, Plain r.1)
    (distinct : (rows.map Prod.fst).Nodup) :
    readAnswer (unlines (rows.map resultLine)) = some (exactCounts rows) := by
  rw [readAnswer,answerLines_unlines]
  · exact readAnswer_fold rows [] plain distinct
  · intro line member
    obtain ⟨r,inside,rfl⟩ := List.mem_map.mp member
    exact resultLine_clean r (plain r inside)

end GenData

open GenData TopNFreqUrls

theorem wrapped_keys (urls : List Bytes) : ((wrapped urls).map Prod.fst).Nodup := by
  refine ((wrapped_nodup urls).map_on ?_)
  rintro ⟨url,cnt⟩ member ⟨other,number⟩ among (rfl : url = other)
  have first : cnt = Int32.ofNat (urls.count url) := ((mem_wrapped urls _).mp member).1
  have second : number = Int32.ofNat (urls.count url) := ((mem_wrapped urls _).mp among).1
  rw [first,second]

theorem bestRows_subset {n : Nat} {rows : List (Bytes × Int32)} {r : Bytes × Int32} (member : r ∈ bestRows n rows) :
    r ∈ rows := by
  have sorted := List.mem_of_mem_take member
  exact (List.perm_insertionSort _ rows).mem_iff.mp sorted

theorem bestRows_keys {n : Nat} {rows : List (Bytes × Int32)} (distinct : (rows.map Prod.fst).Nodup) :
    ((bestRows n rows).map Prod.fst).Nodup := by
  rw [bestRows,List.map_take]
  apply List.Nodup.sublist (List.take_sublist _ _)
  exact ((List.perm_insertionSort _ rows).map Prod.fst).nodup_iff.mpr distinct

theorem wrapped_url {urls : List Bytes} {r : Bytes × Int32} (member : r ∈ wrapped urls) : r.1 ∈ urls := by
  obtain ⟨count,nonzero⟩ := (mem_wrapped urls r).mp member
  by_contra absent
  apply nonzero
  rw [count,List.count_eq_zero_of_not_mem absent]
  rfl

theorem readAnswer_best (n : Nat) (urls : List Bytes) (plain : ∀ url ∈ urls, Plain url) :
    readAnswer (unlines ((bestRows n (wrapped urls)).map resultLine)) = some (exactCounts (bestRows n (wrapped urls))) :=
  readAnswer_results _ (fun _ member => plain _ (wrapped_url (bestRows_subset member))) (bestRows_keys (wrapped_keys urls))

theorem tab_space {url : Bytes} (solid : ∀ b ∈ url, isSpace b = false) : tab ∉ url :=
  fun member => Bool.noConfusion (solid tab member)

/-- Where no URL holds a blank, what the program prints for its results is an answer file
for the generator, which reads the same URLs and counts from it, line by line. -/
theorem printed_results_read_back (env : Env) (disk : Disk) (file content : Bytes) (present : disk file = some content)
    (num_results : Int32) (positive : 1 ≤ num_results.toInt) (mem_limit : UInt64) (low : 1024 ≤ mem_limit.toNat)
    (silent : ¬ FaultReported env content mem_limit) (opens : ∀ j, env.faults.openSpill j = false)
    (reads : ∀ j, env.faults.readSpill j = none)
    (solid : ∀ url ∈ inputUrls env content, ∀ b ∈ url, isSpace b = false) :
    ∃ printed, ((TopNFreqUrls.new file num_results mem_limit disk).Run env).1 = some printed ∧
      readAnswer (unlines printed) =
        some (exactCounts (bestRows num_results.toInt.toNat (wrapped (inputUrls env content)))) := by
  have outcome := run_outcome env disk file content present num_results mem_limit low
  rw [limit_positive file num_results mem_limit disk positive] at outcome
  refine ⟨_,outcome.modulo silent opens reads fun url member => tab_space (solid url member),?_⟩
  refine readAnswer_best _ _ fun url member => ⟨?_,solid url member⟩
  exact List.length_pos_iff.mp (urlsOf_bounds _ url member).1

/-- The lines `b`, `a` and `a`. -/
theorem printed_results_read_back_two :
    ∃ printed, ((TopNFreqUrls.new [105] 2 1024 (oneFile [98,10,97,10,97])).Run Env.reference).1 = some printed ∧
      readAnswer (unlines printed) = some [([97],2),([98],1)] := by
  have solid : ∀ url ∈ inputUrls Env.reference [98,10,97,10,97], ∀ b ∈ url, isSpace b = false := by
    decide +kernel
  obtain ⟨printed,run,read⟩ := printed_results_read_back Env.reference _ [105] _ (Function.update_self ..) 2 (by decide)
    1024 (by decide) (silent_of_sound rfl _ _) (fun _ => rfl) (fun _ => rfl) solid
  exact ⟨printed,run,read.trans (by decide +kernel)⟩

end TopNFreq
