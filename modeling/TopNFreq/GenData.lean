import TopNFreq.Library.Draws
import TopNFreq.Library.Text

/-! `gen-data/gen_file_from_ans.py`: the generator of test files, which takes the
lines from the expected answer and mixes random URLs in. -/
namespace TopNFreq.GenData
open Library.Text Library.Draws

def MAX_URL_LEN : Nat := 1024

/-- `string.letters` -/
def letters : Bytes := ((List.range 26).map fun i => Fin.ofNat 256 (97 + i)) ++
  (List.range 26).map fun i => Fin.ofNat 256 (65 + i)

/-- `http://www.` -/
def scheme : Bytes := [104,116,116,112,58,47,47,119,119,119,46]

/-- `.com?` -/
def domain : Bytes := [46,99,111,109,63]

def equals : Byte := 61

def gen_random_word : Drawing Bytes := do
  let size ← randint 1 20
  (List.range size).mapM fun _ => choice letters

/-- `while length < final_length`; the loop ends early when `params` do not fit. -/
def addParams (final_length : Nat) (url : Bytes) : Drawing Bytes :=
  if url.length < final_length then do
    let name ← gen_random_word
    let value ← gen_random_word
    let params := name ++ equals :: value
    if params.length + url.length > final_length then return url
    else addParams final_length (url ++ params)
  else return url
termination_by final_length - url.length
decreasing_by
  simp only [List.length_append,List.length_cons]
  omega

def gen_random_url : Drawing Bytes := do
  let word ← gen_random_word
  let url := scheme ++ word ++ domain
  let final_length ← randint (url.length + 1) MAX_URL_LEN
  addParams final_length url

/-- The variables of `gen_random_urls_file`. A line of `res_file` says whether it was
taken from the answer. -/
structure Filling where
  url_cnt : List (Bytes × Nat)
  given_urls_remaining_len : Int
  res_file : List (Bool × Bytes)

/-- `url_cnt.pop(url)` the last time, `url_cnt[url] -= 1` before. -/
def takeOne (url : Bytes) : List (Bytes × Nat) → List (Bytes × Nat)
  | [] => []
  | (key,cnt) :: rest =>
    if key = url then if cnt = 1 then rest else (key,cnt - 1) :: rest
    else (key,cnt) :: takeOne url rest

namespace Filling

def write (s : Filling) (given : Bool) (url : Bytes) : Filling :=
  {s with res_file := s.res_file ++ [(given,url)]}

def takeGiven (s : Filling) (url : Bytes) : Filling :=
  {s with
    url_cnt := takeOne url s.url_cnt
    given_urls_remaining_len := s.given_urls_remaining_len - (url.length + 1)}

/-- `for url in url_cnt: while url_cnt[url] > 0` -/
def fulfill (s : Filling) : Filling :=
  {s with
    url_cnt := s.url_cnt.map fun given => (given.1,0)
    res_file := s.res_file ++ s.url_cnt.flatMap fun given => List.replicate given.2 (true,given.1)}

end Filling

/-- The next line; `random() < given / file_size` decides where it is taken from. -/
def nextLine (given file_size : Nat) (s : Filling) : Drawing (Bytes × Filling) := do
  let r ← random
  if r.num * file_size < given * r.den then do
    let url ← choice (s.url_cnt.map Prod.fst)
    return (url,(s.takeGiven url).write true url)
  else do
    let url ← gen_random_url
    return (url,s.write false url)

/-- `while remaining_size > 0` -/
def fill (given file_size : Nat) (remaining_size : Int) (s : Filling) : Drawing Filling :=
  if 0 < remaining_size then
    if s.given_urls_remaining_len ≥ remaining_size then return s.fulfill
    else do
      let (url,s) ← nextLine given file_size s
      fill given file_size (remaining_size - (url.length + 1)) s
  else return s
termination_by remaining_size.toNat
decreasing_by omega

/-- `sum(map(lambda (url, cnt): len(url) * cnt + 1, url_cnt.items()))` -/
def givenLength (url_cnt : List (Bytes × Nat)) : Nat :=
  (url_cnt.map fun given => given.1.length * given.2 + 1).sum

/-- The ratio cannot be computed for a file of 0 bytes, which is a `ZeroDivisionError`. -/
def gen_random_urls_file (file_size : Nat) (url_cnt : List (Bytes × Nat)) : Drawing Filling :=
  if file_size = 0 then StateT.lift none
  else fill (givenLength url_cnt) file_size file_size ⟨url_cnt,givenLength url_cnt,[]⟩

theorem gen_random_urls_file_fill {file_size : Nat} (positive : 0 < file_size) (url_cnt : List (Bytes × Nat)) :
    gen_random_urls_file file_size url_cnt =
      fill (givenLength url_cnt) file_size file_size ⟨url_cnt,givenLength url_cnt,[]⟩ := if_neg positive.ne'

/-! ## The lengths of random URLs -/

theorem always_word : Always gen_random_word fun word => 1 ≤ word.length ∧ word.length ≤ 20 := by
  apply (always_randint 1 20 (by decide)).bind
  intro size bounds
  apply (always_mapM _ fun _ => ?_).imp
  · intro word length
    rwa [length,List.length_range]
  · exact (always_choice letters (by decide)).imp fun _ _ => trivial

theorem can_word (size : Nat) (positive : 1 ≤ size) (short : size ≤ 20) :
    Can gen_random_word fun word => word.length = size := by
  apply (can_randint 1 20 size positive short).bind
  rintro _ rfl
  have letter : (97 : Byte) ∈ letters := by decide
  apply (can_mapM _ fun _ => (can_choice letter).imp fun _ _ => trivial).imp
  intro word length
  rw [length,List.length_range]

theorem always_addParams (final_length : Nat) (url : Bytes) (short : url.length ≤ final_length) :
    Always (addParams final_length url) fun result =>
      url.length ≤ result.length ∧ result.length ≤ final_length := by
  induction url using addParams.induct final_length with
  | case1 url room ih =>
    rw [addParams,if_pos room]
    apply always_word.bind
    intro name _
    apply always_word.bind
    intro value _
    dsimp only
    split
    · exact always_pure ⟨le_rfl,short⟩
    · rename_i fits
      rw [Nat.add_comm,← List.length_append] at fits
      apply (ih name value (Nat.le_of_not_lt fits)).imp
      rintro result ⟨longer,bound⟩
      rw [List.length_append] at longer
      exact ⟨by omega,bound⟩
  | case2 url full =>
    rw [addParams,if_neg full]
    exact always_pure ⟨le_rfl,short⟩

theorem can_add (final_length : Nat) (url : Bytes) (first second : Nat) {P : Bytes → Prop}
    (one : 1 ≤ first ∧ first ≤ 20) (two : 1 ≤ second ∧ second ≤ 20)
    (fits : url.length + (first + second + 1) ≤ final_length)
    (later : ∀ longer : Bytes, longer.length = url.length + (first + second + 1) →
      Can (addParams final_length longer) P) : Can (addParams final_length url) P := by
  rw [addParams,if_pos (by omega)]
  apply (can_word first one.1 one.2).bind
  intro name nameLength
  apply (can_word second two.1 two.2).bind
  intro value valueLength
  dsimp only
  have length : (name ++ equals :: value).length = first + second + 1 := by
    rw [List.length_append,List.length_cons,nameLength,valueLength,Nat.add_assoc]
  rw [if_neg (by omega)]
  apply later
  rw [List.length_append,length]

theorem can_fill_up (final_length : Nat) (url : Bytes) (short : url.length ≤ final_length)
    (room : url.length = final_length ∨ url.length + 3 ≤ final_length) :
    Can (addParams final_length url) fun result => result.length = final_length := by
  generalize size : final_length - url.length = missing
  induction missing using Nat.strongRecOn generalizing url with
  | ind missing ih =>
    rcases room with full | room
    · rw [addParams,if_neg (by omega)]
      exact can_pure full
    · by_cases last : missing ≤ 41
      · apply can_add final_length url (min (missing - 2) 20) (missing - 1 - min (missing - 2) 20) (by omega)
          (by omega) (by omega)
        intro longer length
        exact ih _ (by omega) longer (by omega) (by omega) rfl
      · apply can_add final_length url 1 1 (by omega) (by omega) (by omega)
        intro longer length
        exact ih _ (by omega) longer (by omega) (by omega) rfl

theorem url_length (word : Bytes) : (scheme ++ word ++ domain).length = 16 + word.length := by
  rw [List.length_append,List.length_append]
  simp only [scheme,domain,List.length_cons,List.length_nil]
  omega

theorem always_url : Always gen_random_url fun url => 17 ≤ url.length ∧ url.length ≤ MAX_URL_LEN := by
  apply always_word.bind
  intro word bounds
  have length := url_length word
  have limit : MAX_URL_LEN = 1024 := rfl
  apply (always_randint _ _ (by omega)).bind
  intro final_length order
  apply (always_addParams final_length _ (by omega)).imp
  intro url between
  omega

/-- Every length from 17 to 1024 is possible. -/
theorem can_url (size : Nat) (long : 17 ≤ size) (short : size ≤ MAX_URL_LEN) :
    Can gen_random_url fun url => url.length = size := by
  have limit : MAX_URL_LEN = 1024 := rfl
  by_cases bare : size ≤ 36
  · apply (can_word (size - 16) (by omega) (by omega)).bind
    intro word wordLength
    have length := url_length word
    apply (can_randint _ _ (size + 1) (by omega) (by omega)).bind
    rintro _ rfl
    -- No parameter fits in the one byte that is left.
    rw [addParams,if_pos (by omega)]
    apply (can_word 1 (by omega) (by omega)).bind
    intro name nameLength
    apply (can_word 1 (by omega) (by omega)).bind
    intro value valueLength
    dsimp only
    rw [if_pos (by rw [List.length_append,List.length_cons]; omega)]
    exact can_pure (by omega)
  · apply (can_word 1 (by omega) (by omega)).bind
    intro word wordLength
    have length := url_length word
    apply (can_randint _ _ size (by omega) short).bind
    rintro _ rfl
    exact can_fill_up _ _ (by omega) (by omega)

end TopNFreq.GenData
