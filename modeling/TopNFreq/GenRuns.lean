import TopNFreq.GenData
import Mathlib.Algebra.BigOperators.Group.List.Basic
import Mathlib.Algebra.Order.BigOperators.Group.List
import Mathlib.Data.List.Nodup

/-! When the generator realises its answer. The bytes of a line from the answer are
taken off both budgets, so only random lines change their difference. -/
namespace TopNFreq.GenData
open Library.Text Library.Draws

/-- The expected answer: different URLs with the numbers of their occurrences. -/
structure Answer where
  url_cnt : List (Bytes × Nat)
  distinct : (url_cnt.map Prod.fst).Nodup
  positive : ∀ given ∈ url_cnt, 0 < given.2

/-- The lines that are still to be written. -/
def copies (url_cnt : List (Bytes × Nat)) : List Bytes :=
  url_cnt.flatMap fun given => List.replicate given.2 given.1

def lineBytes (lines : List Bytes) : Nat := (lines.map fun url => url.length + 1).sum

def givenLines (res_file : List (Bool × Bytes)) : List Bytes := (res_file.filter Prod.fst).map Prod.snd

/-- Each URL of the answer has been taken from it as often as it says. -/
def Realised (answer : Answer) (s : Filling) : Prop :=
  ∀ given ∈ answer.url_cnt, (givenLines s.res_file).count given.1 = given.2

theorem copies_cons (url : Bytes) (cnt : Nat) (rest : List (Bytes × Nat)) :
    copies ((url,cnt) :: rest) = List.replicate cnt url ++ copies rest := rfl

theorem mem_copies {url_cnt : List (Bytes × Nat)} {url : Bytes} (member : url ∈ copies url_cnt) :
    url ∈ url_cnt.map Prod.fst := by
  obtain ⟨given,inside,same⟩ := List.mem_flatMap.mp member
  rw [List.eq_of_mem_replicate same]
  exact List.mem_map_of_mem inside

theorem copies_nil {url_cnt : List (Bytes × Nat)} (positive : ∀ given ∈ url_cnt, 0 < given.2) :
    copies url_cnt = [] ↔ url_cnt = [] := by
  constructor
  · intro none
    by_contra some
    obtain ⟨given,inside⟩ := List.exists_mem_of_ne_nil url_cnt some
    have member : given.1 ∈ copies url_cnt :=
      List.mem_flatMap.mpr ⟨given,inside,List.mem_replicate.mpr ⟨(positive given inside).ne',rfl⟩⟩
    rw [none] at member
    cases member
  · rintro rfl
    rfl

theorem count_copies (url_cnt : List (Bytes × Nat)) (distinct : (url_cnt.map Prod.fst).Nodup) :
    ∀ given ∈ url_cnt, (copies url_cnt).count given.1 = given.2 := by
  induction url_cnt with
  | nil => simp
  | cons first rest ih =>
    obtain ⟨url,cnt⟩ := first
    obtain ⟨absent,others⟩ := List.nodup_cons.mp distinct
    have none : (copies rest).count url = 0 :=
      List.count_eq_zero_of_not_mem fun member => absent (mem_copies member)
    intro given member
    rw [copies_cons,List.count_append]
    rcases List.mem_cons.mp member with rfl | inside
    · rw [List.count_replicate_self,none,Nat.add_zero]
    · have different : given.1 ≠ url := by
        intro same
        have key : given.1 ∈ rest.map Prod.fst := List.mem_map_of_mem inside
        rw [same] at key
        exact absent key
      rw [ih others given inside,List.count_replicate,beq_eq_false_iff_ne.mpr different.symm]
      exact Nat.zero_add _

theorem takeOne_copies (url : Bytes) (url_cnt : List (Bytes × Nat)) (positive : ∀ given ∈ url_cnt, 0 < given.2)
    (member : url ∈ url_cnt.map Prod.fst) : (copies url_cnt).Perm (url :: copies (takeOne url url_cnt)) := by
  induction url_cnt with
  | nil => cases member
  | cons first rest ih =>
    obtain ⟨key,cnt⟩ := first
    unfold takeOne
    split
    · rename_i same
      subst same
      obtain ⟨more,rfl⟩ := Nat.exists_eq_add_of_le' (positive (key,cnt) List.mem_cons_self)
      split
      · rename_i last
        rw [copies_cons,last]
        exact .refl _
      · exact .refl _
    · rename_i different
      have later : url ∈ rest.map Prod.fst :=
        (List.mem_cons.mp member).resolve_left fun same => different same.symm
      have tail := ih (fun given inside => positive given (List.mem_cons_of_mem _ inside)) later
      rw [copies_cons,copies_cons]
      exact (tail.append_left _).trans List.perm_middle

theorem takeOne_positive (url : Bytes) (url_cnt : List (Bytes × Nat)) (positive : ∀ given ∈ url_cnt, 0 < given.2) :
    ∀ given ∈ takeOne url url_cnt, 0 < given.2 := by
  induction url_cnt with
  | nil => exact positive
  | cons first rest ih =>
    obtain ⟨key,cnt⟩ := first
    have some := positive (key,cnt) List.mem_cons_self
    have others : ∀ given ∈ rest, 0 < given.2 := fun given inside => positive given (List.mem_cons_of_mem _ inside)
    unfold takeOne
    split
    · split
      · exact others
      · rename_i several
        intro given member
        rcases List.mem_cons.mp member with rfl | inside
        · dsimp only at some ⊢
          omega
        · exact others given inside
    · intro given member
      rcases List.mem_cons.mp member with rfl | inside
      · exact some
      · exact ih others given inside

theorem lineBytes_perm {first second : List Bytes} (same : first.Perm second) : lineBytes first = lineBytes second :=
  (same.map _).sum_eq

theorem lineBytes_cons (url : Bytes) (lines : List Bytes) :
    lineBytes (url :: lines) = url.length + 1 + lineBytes lines := rfl

theorem le_lineBytes {url : Bytes} {lines : List Bytes} (member : url ∈ lines) : url.length + 1 ≤ lineBytes lines :=
  List.le_sum_of_mem (List.mem_map_of_mem member)

theorem givenLines_append (first second : List (Bool × Bytes)) :
    givenLines (first ++ second) = givenLines first ++ givenLines second := by
  rw [givenLines,List.filter_append,List.map_append]
  rfl

/-- The answer at work: the lines that are written and those that are to come make it up. -/
structure Filled (answer : Answer) (s : Filling) : Prop where
  lines : (givenLines s.res_file ++ copies s.url_cnt).Perm (copies answer.url_cnt)
  positive : ∀ given ∈ s.url_cnt, 0 < given.2
  budget : (lineBytes (copies s.url_cnt) : Int) - s.given_urls_remaining_len =
    lineBytes (copies answer.url_cnt) - givenLength answer.url_cnt

variable {answer : Answer} {s : Filling}

theorem filled_start (answer : Answer) : Filled answer ⟨answer.url_cnt,givenLength answer.url_cnt,[]⟩ :=
  ⟨.refl _,answer.positive,rfl⟩

theorem Filled.takeGiven (filled : Filled answer s) (url : Bytes) (member : url ∈ s.url_cnt.map Prod.fst) :
    (copies s.url_cnt).Perm (url :: copies (s.takeGiven url).url_cnt) ∧
      Filled answer ((s.takeGiven url).write true url) := by
  have taken : (copies s.url_cnt).Perm (url :: copies (s.takeGiven url).url_cnt) :=
    takeOne_copies url s.url_cnt filled.positive member
  refine ⟨taken,?_,takeOne_positive url s.url_cnt filled.positive,?_⟩
  · apply List.Perm.trans _ filled.lines
    change (givenLines (s.res_file ++ [(true,url)]) ++ _).Perm _
    rw [givenLines_append,List.append_assoc]
    exact taken.symm.append_left _
  · have budget := filled.budget
    rw [lineBytes_perm taken,lineBytes_cons] at budget
    change (lineBytes (copies (s.takeGiven url).url_cnt) : Int) -
      (s.given_urls_remaining_len - (url.length + 1)) = _
    omega

theorem Filled.writeRandom (filled : Filled answer s) (url : Bytes) : Filled answer (s.write false url) := by
  refine ⟨?_,filled.positive,filled.budget⟩
  apply List.Perm.trans _ filled.lines
  change (givenLines (s.res_file ++ [(false,url)]) ++ _).Perm _
  rw [givenLines_append]
  simp only [givenLines,List.filter_cons,Bool.false_eq_true,if_false,List.filter_nil,List.map_nil,List.append_nil]
  exact .refl _

theorem realised_of_lines (all : (givenLines s.res_file).Perm (copies answer.url_cnt)) : Realised answer s := by
  intro given inside
  rw [← count_copies answer.url_cnt answer.distinct given inside]
  exact all.count_eq given.1

theorem Filled.done (filled : Filled answer s) (none : copies s.url_cnt = []) : Realised answer s := by
  have lines := filled.lines
  rw [none,List.append_nil] at lines
  exact realised_of_lines lines

theorem Filled.fulfilled (filled : Filled answer s) : Realised answer s.fulfill := by
  have written : givenLines (s.url_cnt.flatMap fun given => List.replicate given.2 (true,given.1)) =
      copies s.url_cnt := by
    rw [givenLines,List.filter_eq_self.mpr]
    · rw [List.map_flatMap,copies]
      congr 1
      ext1 given
      rw [List.map_replicate]
    · intro line member
      obtain ⟨given,_,same⟩ := List.mem_flatMap.mp member
      rw [List.eq_of_mem_replicate same]
  have lines := filled.lines
  rw [← written,← givenLines_append] at lines
  exact realised_of_lines (s := s.fulfill) lines

theorem Filled.missing (filled : Filled answer s) {url : Bytes} (left : url ∈ copies s.url_cnt) :
    ¬ Realised answer s := by
  intro realised
  have among : url ∈ copies answer.url_cnt := filled.lines.mem_iff.mp (List.mem_append_right _ left)
  obtain ⟨given,inside,rfl⟩ := List.mem_map.mp (mem_copies among)
  have count := filled.lines.count_eq given.1
  rw [List.count_append,realised given inside,count_copies answer.url_cnt answer.distinct given inside] at count
  have some := List.count_pos_iff.mpr left
  omega

/-! ## One round -/

section Rounds
variable {given file_size : Nat} {remaining_size : Int}

theorem fill_ended (ended : remaining_size ≤ 0) : fill given file_size remaining_size s = pure s := by
  rw [fill,if_neg (not_lt.mpr ended)]

theorem fill_fulfilled (going : 0 < remaining_size) (enough : remaining_size ≤ s.given_urls_remaining_len) :
    fill given file_size remaining_size s = pure s.fulfill := by
  rw [fill,if_pos going,if_pos enough]

theorem fill_round (going : 0 < remaining_size) (short : s.given_urls_remaining_len < remaining_size) :
    fill given file_size remaining_size s = nextLine given file_size s >>= fun drawn =>
      fill given file_size (remaining_size - (drawn.1.length + 1)) drawn.2 := by
  rw [fill,if_pos going,if_neg (not_le.mpr short)]

/-- What a round can write: a line of the answer or a random one. -/
inductive Drawn (s : Filling) : Bytes × Filling → Prop
  | given (url : Bytes) (member : url ∈ s.url_cnt.map Prod.fst) : Drawn s (url,(s.takeGiven url).write true url)
  | random (url : Bytes) (long : 17 ≤ url.length) (short : url.length ≤ MAX_URL_LEN) :
      Drawn s (url,s.write false url)

theorem always_nextLine (left : 0 < given → s.url_cnt ≠ []) : Always (nextLine given file_size s) (Drawn s) := by
  apply always_random.bind
  intro r _
  split
  · rename_i below
    have some : 0 < given := by
      by_contra none
      rw [Nat.eq_zero_of_not_pos none,Nat.zero_mul] at below
      exact Nat.not_lt_zero _ below
    have keys : s.url_cnt.map Prod.fst ≠ [] := fun empty => left some (List.map_eq_nil_iff.mp empty)
    apply (always_choice _ keys).bind
    intro url member
    exact always_pure (.given url member)
  · apply always_url.bind
    intro url bounds
    exact always_pure (.random url bounds.1 bounds.2)

theorem lowest_below (file_size : Nat) (some : 0 < given) :
    (Draw.at 0 1 Nat.one_pos).num * file_size < given * (Draw.at 0 1 Nat.one_pos).den := by
  change 0 * file_size < given * 1
  omega

theorem can_take (some : 0 < given) {url : Bytes} (member : url ∈ s.url_cnt.map Prod.fst) :
    Can (nextLine given file_size s) fun drawn => drawn = (url,(s.takeGiven url).write true url) := by
  apply (can_random (Draw.at 0 1 Nat.one_pos)).bind
  rintro _ rfl
  rw [if_pos (lowest_below file_size some)]
  apply (can_choice member).bind
  rintro _ rfl
  exact can_pure rfl

theorem can_write (more : given < file_size) (size : Nat) (long : 17 ≤ size) (short : size ≤ MAX_URL_LEN) :
    Can (nextLine given file_size s) fun drawn => drawn.1.length = size ∧ drawn.2 = s.write false drawn.1 := by
  have positive : 0 < file_size := Nat.zero_lt_of_lt more
  let r := Draw.at (file_size - 1) file_size (Nat.sub_lt positive Nat.one_pos)
  have above : ¬ r.num * file_size < given * r.den :=
    Nat.not_lt.mpr (Nat.mul_le_mul_right file_size (Nat.le_sub_one_of_lt more))
  apply (can_random r).bind
  rintro _ rfl
  rw [if_neg above]
  apply (can_url size long short).bind
  intro url length
  exact can_pure ⟨length,rfl⟩

/-- With the answer used up, a draw below the ratio chooses from nothing. -/
theorem fails_nextLine (some : 0 < given) (empty : s.url_cnt = []) :
    Fails (nextLine given file_size s) fun _ => True := by
  apply (can_random (Draw.at 0 1 Nat.one_pos)).fails
  rintro _ rfl
  rw [if_pos (lowest_below file_size some),empty]
  exact fails_choice.bind

end Rounds

/-! ## When the budgets suffice -/

/-- The bytes that random lines can take: less than `planned` before the last one,
and up to 1025 for that one. No line takes fewer than 18. -/
def overshoot (planned : Nat) : Nat := (if planned ≤ 18 then 0 else planned - 1) + (MAX_URL_LEN + 1)

/-- There is nothing to realise, or no room for a random line, or room for all lines
of the answer and none of them as short as what random lines can take too much. -/
def Enough (answer : Answer) (file_size : Nat) : Prop :=
  answer.url_cnt = [] ∨ file_size ≤ givenLength answer.url_cnt ∨
    file_size ≤ lineBytes (copies answer.url_cnt) ∧ ∀ given ∈ answer.url_cnt,
      lineBytes (copies answer.url_cnt) + overshoot (file_size - givenLength answer.url_cnt) <
        file_size + (given.1.length + 1)

/-- The head of the loop after random lines of `random` bytes. -/
structure OnBudget (answer : Answer) (file_size : Nat) (remaining_size : Int) (s : Filling) (random : Nat) : Prop
    extends Filled answer s where
  random_lines : random = 0 ∨ 18 ≤ random
  size : remaining_size + lineBytes (copies answer.url_cnt) + random = lineBytes (copies s.url_cnt) + file_size

theorem Filled.long (filled : Filled answer s) {bound : Nat}
    (long : ∀ given ∈ answer.url_cnt, bound < given.1.length + 1) (some : copies s.url_cnt ≠ []) :
    bound < lineBytes (copies s.url_cnt) := by
  obtain ⟨url,left⟩ := List.exists_mem_of_ne_nil _ some
  have among : url ∈ copies answer.url_cnt := filled.lines.mem_iff.mp (List.mem_append_right _ left)
  obtain ⟨given,inside,rfl⟩ := List.mem_map.mp (mem_copies among)
  exact (long given inside).trans_le (le_lineBytes left)

theorem always_empty (file_size : Nat) (remaining_size : Int) (s : Filling) :
    Always (fill 0 file_size remaining_size s) fun _ => True := by
  induction remaining_size, s using fill.induct with
  | case1 remaining_size s going enough =>
    rw [fill_fulfilled going enough]
    exact always_pure trivial
  | case2 remaining_size s going short ih =>
    rw [fill_round going (not_le.mp short)]
    apply (always_nextLine fun some => absurd some (Nat.lt_irrefl 0)).bind
    rintro ⟨url,next⟩ _
    exact ih url next
  | case3 remaining_size s ended =>
    rw [fill_ended (not_lt.mp ended)]
    exact always_pure trivial

theorem OnBudget.random_lt {file_size : Nat} {remaining_size : Int} {random : Nat}
    (onBudget : OnBudget answer file_size remaining_size s random)
    (short : s.given_urls_remaining_len < remaining_size) : givenLength answer.url_cnt + random < file_size := by
  have budget := onBudget.budget
  have size := onBudget.size
  omega

theorem OnBudget.random_le {file_size : Nat} {remaining_size : Int} {random : Nat}
    (onBudget : OnBudget answer file_size remaining_size s random)
    (short : s.given_urls_remaining_len < remaining_size) :
    random + (MAX_URL_LEN + 1) ≤ overshoot (file_size - givenLength answer.url_cnt) := by
  have less := onBudget.random_lt short
  have lines := onBudget.random_lines
  unfold overshoot
  split <;> omega

theorem OnBudget.takeGiven {file_size : Nat} {remaining_size : Int} {random : Nat}
    (onBudget : OnBudget answer file_size remaining_size s random) (url : Bytes)
    (member : url ∈ s.url_cnt.map Prod.fst) :
    OnBudget answer file_size (remaining_size - (url.length + 1)) ((s.takeGiven url).write true url) random := by
  obtain ⟨taken,filled⟩ := onBudget.toFilled.takeGiven url member
  refine ⟨filled,onBudget.random_lines,?_⟩
  have bytes := lineBytes_perm taken
  rw [lineBytes_cons] at bytes
  have size := onBudget.size
  change remaining_size - (url.length + 1) + _ + _ =
    (lineBytes (copies (s.takeGiven url).url_cnt) : Int) + file_size
  omega

theorem OnBudget.writeRandom {file_size : Nat} {remaining_size : Int} {random : Nat}
    (onBudget : OnBudget answer file_size remaining_size s random) (url : Bytes) (long : 17 ≤ url.length) :
    OnBudget answer file_size (remaining_size - (url.length + 1)) (s.write false url)
      (random + (url.length + 1)) := by
  refine ⟨onBudget.toFilled.writeRandom url,?_,?_⟩
  · omega
  · have size := onBudget.size
    change remaining_size - (url.length + 1) + _ + _ = (lineBytes (copies s.url_cnt) : Int) + file_size
    omega

theorem always_on_budget {file_size : Nat} (fits : file_size ≤ lineBytes (copies answer.url_cnt))
    (long : ∀ given ∈ answer.url_cnt,
      lineBytes (copies answer.url_cnt) + overshoot (file_size - givenLength answer.url_cnt) <
        file_size + (given.1.length + 1))
    (remaining_size : Int) (s : Filling) (random : Nat) (onBudget : OnBudget answer file_size remaining_size s random)
    (head : 0 < remaining_size ∨ copies s.url_cnt = []) :
    Always (fill (givenLength answer.url_cnt) file_size remaining_size s) (Realised answer) := by
  have bound (given : Bytes × Nat) (member : given ∈ answer.url_cnt) :
      lineBytes (copies answer.url_cnt) + overshoot (file_size - givenLength answer.url_cnt) - file_size <
        given.1.length + 1 := by
    have room := long given member
    omega
  induction remaining_size, s using fill.induct generalizing random with
  | case1 remaining_size s going enough =>
    rw [fill_fulfilled going enough]
    exact always_pure onBudget.fulfilled
  | case2 remaining_size s going short ih =>
    have less := not_le.mp short
    have excess := onBudget.random_le less
    have size := onBudget.size
    have left : copies s.url_cnt ≠ [] := by
      intro none
      rw [none] at size
      have nothing : lineBytes [] = 0 := rfl
      omega
    have entries : s.url_cnt ≠ [] := fun none => left ((copies_nil onBudget.positive).mpr none)
    rw [fill_round going less]
    apply (always_nextLine fun _ => entries).bind
    rintro _ (⟨url,member⟩ | ⟨url,long,short⟩)
    · have taken := onBudget.takeGiven url member
      refine ih url _ random taken ?_
      by_contra ends
      obtain ⟨ended,some⟩ := not_or.mp ends
      have more := taken.toFilled.long bound some
      have sizes := taken.size
      omega
    · have limit : MAX_URL_LEN = 1024 := rfl
      refine ih url _ _ (onBudget.writeRandom url long) ?_
      have more := onBudget.toFilled.long bound left
      omega
  | case3 remaining_size s ended =>
    rw [fill_ended (not_lt.mp ended)]
    exact always_pure (onBudget.done (head.resolve_left ended))

theorem Enough.always {file_size : Nat} (positive : 0 < file_size) (enough : Enough answer file_size) :
    Always (gen_random_urls_file file_size answer.url_cnt) (Realised answer) := by
  have going : 0 < (file_size : Int) := Int.natCast_pos.mpr positive
  rw [gen_random_urls_file_fill positive]
  rcases enough with none | full | ⟨fits,long⟩
  · have given : givenLength answer.url_cnt = 0 := by
      rw [none]
      rfl
    rw [given]
    apply (always_empty file_size file_size _).imp
    intro s _ entry member
    rw [none] at member
    cases member
  · rw [fill_fulfilled going (Int.ofNat_le.mpr full)]
    exact always_pure (filled_start answer).fulfilled
  · refine always_on_budget fits long file_size _ 0 ⟨filled_start answer,.inl rfl,?_⟩ (.inl going)
    rw [Int.add_comm (file_size : Int)]
    rfl

/-! ## When they do not -/

section Failing
variable {given file_size : Nat}

theorem fails_ended {remaining_size : Int} (filled : Filled answer s) (ended : remaining_size ≤ 0) {url : Bytes}
    (left : url ∈ copies s.url_cnt) : Fails (fill given file_size remaining_size s) (Realised answer) := by
  rw [fill_ended ended]
  exact fails_pure (filled.missing left)

theorem fails_take {remaining_size : Int} (some : 0 < given) (going : 0 < remaining_size)
    (short : s.given_urls_remaining_len < remaining_size) {url : Bytes} (left : url ∈ copies s.url_cnt)
    (later : Fails (fill given file_size (remaining_size - (url.length + 1)) ((s.takeGiven url).write true url))
      (Realised answer)) : Fails (fill given file_size remaining_size s) (Realised answer) := by
  rw [fill_round going short]
  apply (can_take some (mem_copies left)).fails
  rintro _ rfl
  exact later

/-- An answer that is too small for the file is used up before the loop ends. -/
theorem fails_used_up (some : 0 < given) (left : List Bytes) (remaining_size : Int) (s : Filling) (filled : Filled answer s)
    (lines : (copies s.url_cnt).Perm left) (short : s.given_urls_remaining_len < remaining_size)
    (small : lineBytes left < remaining_size) :
    Fails (fill given file_size remaining_size s) (Realised answer) := by
  have going : 0 < remaining_size := (Int.natCast_nonneg _).trans_lt small
  induction left generalizing s remaining_size with
  | nil =>
    have empty := (copies_nil filled.positive).mp lines.eq_nil
    rw [fill_round going short]
    exact (fails_nextLine some empty).bind
  | cons url rest ih =>
    have member : url ∈ copies s.url_cnt := lines.mem_iff.mpr List.mem_cons_self
    obtain ⟨taken,next⟩ := filled.takeGiven url (mem_copies member)
    rw [lineBytes_cons] at small
    apply fails_take some going short member
    apply ih _ _ next (taken.symm.trans lines).cons_inv
    · change s.given_urls_remaining_len - (url.length + 1) < _
      omega
    · omega
    · omega

theorem fails_write {remaining_size : Int} (more : given < file_size) (going : 0 < remaining_size)
    (short : s.given_urls_remaining_len < remaining_size) (size : Nat) (long : 17 ≤ size) (bound : size ≤ MAX_URL_LEN)
    (later : ∀ url : Bytes, url.length = size →
      Fails (fill given file_size (remaining_size - (size + 1)) (s.write false url)) (Realised answer)) :
    Fails (fill given file_size remaining_size s) (Realised answer) := by
  rw [fill_round going short]
  apply (can_write more size long bound).fails
  rintro ⟨url,next⟩ ⟨length,same⟩
  dsimp only at length same ⊢
  rw [same,length]
  exact later url length

/-- Random lines of `random` bytes and a last one of 1025 bytes end the loop. -/
theorem fails_overshot (more : given < file_size) (random : Nat) (lines : random = 0 ∨ 18 ≤ random)
    (remaining_size : Int) (s : Filling)
    (filled : Filled answer s) {url : Bytes} (left : url ∈ copies s.url_cnt)
    (short : s.given_urls_remaining_len + random < remaining_size)
    (near : remaining_size ≤ random + (MAX_URL_LEN + 1)) :
    Fails (fill given file_size remaining_size s) (Realised answer) := by
  have limit : MAX_URL_LEN = 1024 := rfl
  induction random using Nat.strongRecOn generalizing remaining_size s with
  | ind random ih =>
    by_cases going : 0 < remaining_size
    · rcases lines with rfl | lines
      · apply fails_write more going (by omega) MAX_URL_LEN (by omega) le_rfl
        intro line _
        exact fails_ended (filled.writeRandom line) (by omega) left
      · by_cases last : random ≤ 35
        · apply fails_write more going (by omega) (random - 1) (by omega) (by omega)
          intro line _
          apply ih 0 (by omega) (.inl rfl) _ _ (filled.writeRandom line) left
          · change s.given_urls_remaining_len + 0 < _
            omega
          · omega
        · apply fails_write more going (by omega) 17 (by omega) (by omega)
          intro line _
          apply ih (random - 18) (by omega) (.inr (by omega)) _ _ (filled.writeRandom line) left
          · change s.given_urls_remaining_len + _ < _
            omega
          · omega
    · exact fails_ended filled (not_lt.mp going) left

/-- With all lines but one of the answer written, random lines end the loop. -/
theorem fails_last (some : 0 < given) (more : given < file_size) (rest : List Bytes) (remaining_size : Int)
    (s : Filling) (filled : Filled answer s) (url : Bytes)
    (lines : (copies s.url_cnt).Perm (url :: rest)) (planned : Nat) (positive : 0 < planned)
    (short : s.given_urls_remaining_len + planned = remaining_size)
    (near : remaining_size ≤ lineBytes rest + overshoot planned) :
    Fails (fill given file_size remaining_size s) (Realised answer) := by
  have left : url ∈ copies s.url_cnt := lines.mem_iff.mpr List.mem_cons_self
  induction rest generalizing remaining_size s with
  | nil =>
    have none : lineBytes [] = 0 := rfl
    unfold overshoot at near
    split at near
    · exact fails_overshot more 0 (.inl rfl) remaining_size s filled left (by omega) (by omega)
    · exact fails_overshot more (planned - 1) (.inr (by omega)) remaining_size s filled left (by omega) (by omega)
  | cons other rest ih =>
    by_cases going : 0 < remaining_size
    · have swapped := lines.trans (List.Perm.swap other url rest)
      have member : other ∈ copies s.url_cnt := swapped.mem_iff.mpr List.mem_cons_self
      obtain ⟨taken,next⟩ := filled.takeGiven other (mem_copies member)
      have others := (taken.symm.trans swapped).cons_inv
      rw [lineBytes_cons] at near
      apply fails_take some going (by omega) member
      apply ih _ _ next others
      · change s.given_urls_remaining_len - (other.length + 1) + _ = _
        omega
      · omega
      · exact others.mem_iff.mpr List.mem_cons_self
    · exact fails_ended filled (not_lt.mp going) left

end Failing

theorem Enough.of_always {file_size : Nat}
    (always : Always (gen_random_urls_file file_size answer.url_cnt) (Realised answer)) : Enough answer file_size := by
  by_contra lacks
  obtain ⟨entries,rest⟩ := not_or.mp lacks
  obtain ⟨more,tight⟩ := not_or.mp rest
  rw [not_le] at more
  have some : 0 < givenLength answer.url_cnt := by
    obtain ⟨entry,inside⟩ := List.exists_mem_of_ne_nil _ entries
    have part : entry.1.length * entry.2 + 1 ≤ givenLength answer.url_cnt :=
      List.le_sum_of_mem (List.mem_map_of_mem inside)
    omega
  have start := filled_start answer
  apply Fails.not_always _ always
  rw [gen_random_urls_file_fill (Nat.zero_lt_of_lt more)]
  by_cases fits : file_size ≤ lineBytes (copies answer.url_cnt)
  · obtain ⟨entry,inside,near⟩ : ∃ entry ∈ answer.url_cnt, file_size + (entry.1.length + 1) ≤
        lineBytes (copies answer.url_cnt) + overshoot (file_size - givenLength answer.url_cnt) := by
      by_contra long
      apply tight
      refine ⟨fits,fun entry inside => ?_⟩
      by_contra near
      exact long ⟨entry,inside,not_lt.mp near⟩
    have member : entry.1 ∈ copies answer.url_cnt :=
      List.mem_flatMap.mpr ⟨entry,inside,List.mem_replicate.mpr ⟨(answer.positive entry inside).ne',rfl⟩⟩
    have lines := List.perm_cons_erase member
    have bytes := lineBytes_perm lines
    rw [lineBytes_cons] at bytes
    apply fails_last some more _ _ _ start entry.1 lines (file_size - givenLength answer.url_cnt) (by omega)
    · dsimp only
      omega
    · omega
  · exact fails_used_up some _ _ _ start (.refl _) (Int.ofNat_lt.mpr more) (Int.ofNat_lt.mpr (not_le.mp fits))

/-- The generator realises its answer, whatever is drawn, exactly if the sizes fit. -/
theorem generator_realises_iff (answer : Answer) (file_size : Nat) (positive : 0 < file_size) :
    Always (gen_random_urls_file file_size answer.url_cnt) (Realised answer) ↔ Enough answer file_size :=
  ⟨Enough.of_always,Enough.always positive⟩

def oneUrl (url : Bytes) (cnt : Nat) (positive : 0 < cnt) : Answer :=
  ⟨[(url,cnt)],List.nodup_singleton _,by simpa using positive⟩

/-- The URL `a` once in a file of 10 bytes, with every draw 0: behind the first line
there is nothing to choose from. -/
theorem answer_used_up :
    (gen_random_urls_file 10 [([97],1)]).run (Stream'.const (Draw.at 0 1 Nat.one_pos)) = none ∧
      ¬ Always (gen_random_urls_file 10 (oneUrl [97] 1 Nat.one_pos).url_cnt) (Realised (oneUrl [97] 1 Nat.one_pos)) := by
  have raised : (gen_random_urls_file 10 [([97],1)]).run (Stream'.const (Draw.at 0 1 Nat.one_pos)) = none := by
    rw [gen_random_urls_file_fill (by decide),fill_round (by decide) (by decide),bind_run]
    change (fill 2 10 8 ⟨[],0,[(true,[97])]⟩).run _ = none
    rw [fill_round (by decide) (by decide),bind_run]
    rfl
  refine ⟨raised,?_⟩
  intro always
  obtain ⟨s,rest,run,_⟩ := always (Stream'.const (Draw.at 0 1 Nat.one_pos))
  have same : (gen_random_urls_file 10 [([97],1)]).run _ = some (s,rest) := run
  rw [raised] at same
  cases same

/-- A URL of 1100 bytes, twice: a file of its two lines has one byte more than is planned, so that
the first line is drawn and may be a random one. -/
theorem generator_realises_long :
    Always (gen_random_urls_file 2202 (oneUrl (List.replicate 1100 97) 2 Nat.two_pos).url_cnt)
      (Realised (oneUrl (List.replicate 1100 97) 2 Nat.two_pos)) := by
  refine (generator_realises_iff (oneUrl (List.replicate 1100 97) 2 Nat.two_pos) 2202 (by decide)).mpr (.inr (.inr ?_))
  have size : (List.replicate 1100 (97 : Byte)).length = 1100 := List.length_replicate
  generalize List.replicate 1100 (97 : Byte) = url at size ⊢
  simp [oneUrl,copies,lineBytes,givenLength,overshoot,MAX_URL_LEN,size]

end TopNFreq.GenData
