import TopNFreq.GenRuns

/-! The files that the generator writes, whatever is drawn and whatever size is asked
for: what their lines are, and how large they get. -/
namespace TopNFreq.GenData
open Library.Text Library.Draws

/-! ## Random URLs -/

/-- No byte is a blank or a control character. -/
def Graphic (text : Bytes) : Prop := ∀ b ∈ text, 32 < b.val

theorem graphic_append {first second : Bytes} (one : Graphic first) (two : Graphic second) : Graphic (first ++ second) :=
  fun b member => (List.mem_append.mp member).elim (one b) (two b)

theorem graphic_letters : Graphic letters := by
  unfold Graphic letters
  decide +kernel

/-- 1 to 20 letters. -/
structure Word (word : Bytes) : Prop where
  nonempty : 1 ≤ word.length
  short : word.length ≤ 20
  letters : ∀ b ∈ word, b ∈ GenData.letters

theorem Word.graphic {word : Bytes} (made : Word word) : Graphic word :=
  fun b member => graphic_letters b (made.letters b member)

theorem whenever_word : Whenever gen_random_word Word := by
  have letters : Whenever gen_random_word fun word => ∀ b ∈ word, b ∈ GenData.letters := by
    apply (always_randint 1 20 (by decide)).whenever.bind
    intro size _
    exact whenever_mapM _ fun _ => whenever_choice GenData.letters
  apply (always_word.whenever.and letters).imp
  rintro word ⟨⟨nonempty,short⟩,only⟩
  exact ⟨nonempty,short,only⟩

/-- `<name>=<value>` for each pair, with nothing between them. -/
def paramsText (params : List (Bytes × Bytes)) : Bytes := params.flatMap fun param => param.1 ++ equals :: param.2

def WordParams (params : List (Bytes × Bytes)) : Prop := ∀ param ∈ params, Word param.1 ∧ Word param.2

theorem whenever_addParams (final_length : Nat) (url : Bytes) :
    Whenever (addParams final_length url) fun result => ∃ params, WordParams params ∧ result = url ++ paramsText params := by
  have none (url : Bytes) : ∃ params, WordParams params ∧ url = url ++ paramsText params :=
    ⟨[],fun _ member => absurd member List.not_mem_nil,(List.append_nil url).symm⟩
  induction url using addParams.induct final_length with
  | case1 url room ih =>
    rw [addParams,if_pos room]
    apply whenever_word.bind
    intro name first
    apply whenever_word.bind
    intro value second
    dsimp only
    split
    · exact whenever_pure (none url)
    · apply (ih name value).imp
      rintro result ⟨params,words,rfl⟩
      refine ⟨(name,value) :: params,List.forall_mem_cons.mpr ⟨⟨first,second⟩,words⟩,?_⟩
      exact List.append_assoc url (name ++ equals :: value) (paramsText params)
  | case2 url full =>
    rw [addParams,if_neg full]
    exact whenever_pure (none url)

/-- `http://www.<word>.com?` and parameters, of 17 to 1024 bytes. -/
structure RandomUrl (url : Bytes) : Prop where
  long : 17 ≤ url.length
  short : url.length ≤ MAX_URL_LEN
  shape : ∃ word params, Word word ∧ WordParams params ∧ url = scheme ++ word ++ domain ++ paramsText params

theorem whenever_url : Whenever gen_random_url RandomUrl := by
  have shape : Whenever gen_random_url fun url =>
      ∃ word params, Word word ∧ WordParams params ∧ url = scheme ++ word ++ domain ++ paramsText params := by
    apply whenever_word.bind
    intro word made
    apply (whenever_randint _ _).bind
    intro final_length _
    apply (whenever_addParams final_length _).imp
    rintro url ⟨params,words,rfl⟩
    exact ⟨word,params,made,words,rfl⟩
  apply (always_url.whenever.and shape).imp
  rintro url ⟨⟨long,short⟩,formed⟩
  exact ⟨long,short,formed⟩

theorem RandomUrl.graphic {url : Bytes} (random : RandomUrl url) : Graphic url := by
  have fixed : Graphic scheme ∧ Graphic domain ∧ 32 < equals.val := by
    unfold Graphic scheme domain equals
    decide +kernel
  obtain ⟨word,params,made,words,rfl⟩ := random.shape
  refine graphic_append (graphic_append (graphic_append fixed.1 made.graphic) fixed.2.1) fun b member => ?_
  obtain ⟨param,inside,among⟩ := List.mem_flatMap.mp member
  obtain ⟨first,second⟩ := words param inside
  exact graphic_append first.graphic (List.forall_mem_cons.mpr ⟨fixed.2.2,second.graphic⟩) b among

/-! ## The loop -/

def lines (s : Filling) : List Bytes := s.res_file.map Prod.snd

def randomLines (s : Filling) : List Bytes := (s.res_file.filter fun line => !line.1).map Prod.snd

theorem mem_lines {s : Filling} {url : Bytes} : url ∈ lines s ↔ url ∈ givenLines s.res_file ∨ url ∈ randomLines s := by
  constructor
  · intro member
    obtain ⟨⟨given,url⟩,inside,rfl⟩ := List.mem_map.mp member
    cases given with
    | true => exact .inl (List.mem_map.mpr ⟨(true,url),List.mem_filter.mpr ⟨inside,rfl⟩,rfl⟩)
    | false => exact .inr (List.mem_map.mpr ⟨(false,url),List.mem_filter.mpr ⟨inside,rfl⟩,rfl⟩)
  · rintro (member | member)
    · obtain ⟨line,inside,rfl⟩ := List.mem_map.mp member
      exact List.mem_map_of_mem (List.mem_filter.mp inside).1
    · obtain ⟨line,inside,rfl⟩ := List.mem_map.mp member
      exact List.mem_map_of_mem (List.mem_filter.mp inside).1

variable {answer : Answer} {s : Filling} {file_size longest : Nat} {remaining_size : Int}

/-- A head of the loop. The budget of the answer is the larger one only at the start. -/
structure AtHead (answer : Answer) (file_size longest : Nat) (remaining_size : Int) (s : Filling) : Prop where
  filled : Filled answer s
  random : ∀ url ∈ randomLines s, RandomUrl url
  written : (lineBytes (lines s) : Int) + remaining_size = file_size
  ahead : s.given_urls_remaining_len ≤ remaining_size + MAX_URL_LEN ∨ s.res_file = []
  beyond : -(longest : Int) ≤ remaining_size

/-- What is written when the loop ends. -/
structure Ended (answer : Answer) (file_size longest : Nat) (s : Filling) : Prop where
  given : (givenLines s.res_file).Subperm (copies answer.url_cnt)
  random : ∀ url ∈ randomLines s, RandomUrl url
  least : file_size ≤ lineBytes (lines s)
  most : lineBytes (lines s) ≤ max (lineBytes (copies answer.url_cnt))
    (file_size + longest + (lineBytes (copies answer.url_cnt) - givenLength answer.url_cnt))

theorem lineBytes_append (first second : List Bytes) : lineBytes (first ++ second) = lineBytes first + lineBytes second := by
  rw [lineBytes,List.map_append,List.sum_append]
  rfl

theorem lines_write (s : Filling) (given : Bool) (url : Bytes) : lines (s.write given url) = lines s ++ [url] := by
  rw [lines,Filling.write,List.map_append]
  rfl

theorem lineBytes_write (s : Filling) (given : Bool) (url : Bytes) :
    lineBytes (lines (s.write given url)) = lineBytes (lines s) + (url.length + 1) := by
  rw [lines_write,lineBytes_append]
  rfl

theorem randomLines_given (s : Filling) (url : Bytes) : randomLines (s.write true url) = randomLines s := by
  simp [randomLines,Filling.write]

theorem randomLines_random (s : Filling) (url : Bytes) : randomLines (s.write false url) = randomLines s ++ [url] := by
  simp [randomLines,Filling.write]

theorem lineBytes_replicate (cnt : Nat) (url : Bytes) : lineBytes (List.replicate cnt url) = cnt * (url.length + 1) := by
  rw [lineBytes,List.map_replicate,List.sum_replicate_nat]

/-- Every line of the answer counts its newline, which the planned length does once for each URL. -/
theorem givenLength_le (answer : Answer) : givenLength answer.url_cnt ≤ lineBytes (copies answer.url_cnt) := by
  obtain ⟨url_cnt,distinct,positive⟩ := answer
  dsimp only
  clear distinct
  induction url_cnt with
  | nil => exact le_rfl
  | cons given rest ih =>
    have later := ih (fun other among => positive other (List.mem_cons_of_mem _ among))
    have some := positive given List.mem_cons_self
    rw [copies_cons,lineBytes_append,lineBytes_replicate,givenLength,List.map_cons,List.sum_cons,← givenLength]
    have expanded : given.2 * (given.1.length + 1) = given.1.length * given.2 + given.2 := by ring
    omega

theorem atHead_start (answer : Answer) (file_size longest : Nat) :
    AtHead answer file_size longest file_size ⟨answer.url_cnt,givenLength answer.url_cnt,[]⟩ :=
  ⟨filled_start answer,fun _ member => absurd member List.not_mem_nil,Int.zero_add _,.inr rfl,by omega⟩

theorem AtHead.given (head : AtHead answer file_size longest remaining_size s) (going : 0 < remaining_size)
    (short : s.given_urls_remaining_len < remaining_size) (url : Bytes) (member : url ∈ s.url_cnt.map Prod.fst)
    (bound : url.length ≤ longest) :
    AtHead answer file_size longest (remaining_size - (url.length + 1)) ((s.takeGiven url).write true url) := by
  refine ⟨(head.filled.takeGiven url member).2,?_,?_,.inl ?_,by omega⟩
  · rw [randomLines_given]
    exact head.random
  · have written := head.written
    rw [lineBytes_write]
    change ((lineBytes (lines s) + (url.length + 1) : Nat) : Int) + _ = _
    omega
  · change s.given_urls_remaining_len - (url.length + 1) ≤ _
    omega

theorem AtHead.another (head : AtHead answer file_size longest remaining_size s) (going : 0 < remaining_size)
    (short : s.given_urls_remaining_len < remaining_size) (url : Bytes) (random : RandomUrl url)
    (bound : MAX_URL_LEN ≤ longest) :
    AtHead answer file_size longest (remaining_size - (url.length + 1)) (s.write false url) := by
  have fits := random.short
  refine ⟨head.filled.writeRandom url,?_,?_,.inl ?_,by omega⟩
  · rw [randomLines_random]
    intro other member
    rcases List.mem_append.mp member with before | last
    · exact head.random other before
    · exact List.mem_singleton.mp last ▸ random
  · have written := head.written
    rw [lineBytes_write]
    omega
  · change s.given_urls_remaining_len ≤ _
    omega

theorem AtHead.ended (head : AtHead answer file_size longest remaining_size s) (beyond : remaining_size ≤ 0) :
    Ended answer file_size longest s := by
  have written := head.written
  have bound := head.beyond
  refine ⟨?_,head.random,by omega,le_max_of_le_right (by omega)⟩
  exact (List.sublist_append_left _ _).subperm.trans head.filled.lines.subperm

theorem lines_fulfill (s : Filling) : lines s.fulfill = lines s ++ copies s.url_cnt := by
  rw [lines,Filling.fulfill,List.map_append,List.map_flatMap]
  simp only [List.map_replicate]
  rfl

theorem givenLines_fulfill (s : Filling) : givenLines s.fulfill.res_file = givenLines s.res_file ++ copies s.url_cnt := by
  rw [Filling.fulfill,givenLines_append]
  congr 1
  rw [givenLines,List.filter_eq_self.mpr,List.map_flatMap]
  · simp only [List.map_replicate]
    rfl
  · intro line member
    obtain ⟨given,_,same⟩ := List.mem_flatMap.mp member
    rw [List.eq_of_mem_replicate same]

theorem randomLines_fulfill (s : Filling) : randomLines s.fulfill = randomLines s := by
  have none : ((s.url_cnt.flatMap fun given => List.replicate given.2 (true,given.1)).filter fun line => !line.1) = [] := by
    rw [List.filter_eq_nil_iff]
    intro line member
    obtain ⟨given,_,same⟩ := List.mem_flatMap.mp member
    simp [List.eq_of_mem_replicate same]
  rw [randomLines,Filling.fulfill,List.filter_append,none,List.append_nil]
  rfl

theorem AtHead.fulfilled (head : AtHead answer file_size longest remaining_size s)
    (enough : remaining_size ≤ s.given_urls_remaining_len) (bound : MAX_URL_LEN ≤ longest) :
    Ended answer file_size longest s.fulfill := by
  have written := head.written
  have budget := head.filled.budget
  have planned := givenLength_le answer
  have total : lineBytes (lines s.fulfill) = lineBytes (lines s) + lineBytes (copies s.url_cnt) := by
    rw [lines_fulfill,lineBytes_append]
  refine ⟨?_,?_,by omega,?_⟩
  · rw [givenLines_fulfill]
    exact head.filled.lines.subperm
  · rw [randomLines_fulfill]
    exact head.random
  · rcases head.ahead with near | start
    · exact le_max_of_le_right (by omega)
    · have all := head.filled.lines
      rw [start,show givenLines [] = [] from rfl,List.nil_append] at all
      rw [total,lineBytes_perm all,lines,start,List.map_nil,show lineBytes [] = 0 from rfl,Nat.zero_add]
      exact le_max_left (lineBytes (copies answer.url_cnt)) _

theorem AtHead.drawn (head : AtHead answer file_size longest remaining_size s) (given : Nat) (going : 0 < remaining_size)
    (short : s.given_urls_remaining_len < remaining_size) (bounds : ∀ entry ∈ answer.url_cnt, entry.1.length ≤ longest)
    (bound : MAX_URL_LEN ≤ longest) : Whenever (nextLine given file_size s) fun drawn =>
      AtHead answer file_size longest (remaining_size - (drawn.1.length + 1)) drawn.2 := by
  apply whenever_random.bind
  intro r _
  split
  · apply (whenever_choice _).bind
    intro url member
    have copied : url ∈ copies answer.url_cnt := by
      have taken := (head.filled.takeGiven url member).1
      exact head.filled.lines.mem_iff.mp (List.mem_append_right _ (taken.mem_iff.mpr List.mem_cons_self))
    obtain ⟨entry,inside,rfl⟩ := List.mem_map.mp (mem_copies copied)
    exact whenever_pure (head.given going short entry.1 member (bounds entry inside))
  · apply whenever_url.bind
    intro url random
    exact whenever_pure (head.another going short url random bound)

theorem whenever_fill (given : Nat) (bounds : ∀ entry ∈ answer.url_cnt, entry.1.length ≤ longest)
    (bound : MAX_URL_LEN ≤ longest)
    (head : AtHead answer file_size longest remaining_size s) :
    Whenever (fill given file_size remaining_size s) (Ended answer file_size longest) := by
  generalize size : remaining_size.toNat = left
  induction left using Nat.strongRecOn generalizing remaining_size s with
  | ind left ih =>
    by_cases going : 0 < remaining_size
    · by_cases enough : remaining_size ≤ s.given_urls_remaining_len
      · rw [fill_fulfilled going enough]
        exact whenever_pure (head.fulfilled enough bound)
      · have short := not_le.mp enough
        rw [fill_round going short]
        apply (head.drawn given going short bounds bound).bind
        intro drawn next
        exact ih _ (by omega) next rfl
    · rw [fill_ended (not_lt.mp going)]
      exact whenever_pure (head.ended (not_lt.mp going))

theorem whenever_file (answer : Answer) (file_size : Nat) (bound : MAX_URL_LEN ≤ longest)
    (bounds : ∀ given ∈ answer.url_cnt, given.1.length ≤ longest) :
    Whenever (gen_random_urls_file file_size answer.url_cnt) (Ended answer file_size longest) := by
  unfold gen_random_urls_file
  split
  · exact whenever_raised
  · exact whenever_fill _ bounds bound (atHead_start answer file_size longest)

/-- Whatever is drawn and whatever size is asked for: the lines from the answer are not more
than it says, the others are random URLs, and the file is at least as large as asked and
larger by no more than a line and what the planned length of the answer leaves out. -/
theorem generator_bounded (answer : Answer) (file_size longest : Nat) (bound : MAX_URL_LEN ≤ longest)
    (bounds : ∀ given ∈ answer.url_cnt, given.1.length ≤ longest) :
    Whenever (gen_random_urls_file file_size answer.url_cnt) (Ended answer file_size longest) :=
  whenever_file answer file_size bound bounds

/-- The first draw is for a random line, all others are 0. -/
def oneRandom : Stream' Draw := Stream'.cons (Draw.at 1 2 Nat.one_lt_two) (Stream'.const (Draw.at 0 1 Nat.one_pos))

/-- `http://www.a.com?` and a given URL of one byte. -/
def randomFirst (b : Byte) : Filling := ⟨[([b],0)],2,[(false,scheme ++ 97 :: domain),(true,[b])]⟩

theorem randomFirst_drawn (b : Byte) : (gen_random_urls_file 20 (oneUrl [b] 1 Nat.one_pos).url_cnt).run oneRandom =
    some (randomFirst b,Stream'.const (Draw.at 0 1 Nat.one_pos)) := by
  have url : gen_random_url.run (Stream'.const (Draw.at 0 1 Nat.one_pos)) =
      some (scheme ++ 97 :: domain,Stream'.const (Draw.at 0 1 Nat.one_pos)) := by
    change (addParams 18 (scheme ++ [97] ++ domain)).run _ = _
    rw [addParams,if_pos (by decide)]
    rfl
  have going : (0 : Int) < ((20 : Nat) : Int) := by decide
  rw [gen_random_urls_file_fill (by decide),fill_round going (show (2 : Int) < _ by decide),bind_run]
  have line : (nextLine 2 20 ⟨[([b],1)],2,[]⟩).run oneRandom =
      some ((scheme ++ 97 :: domain,⟨[([b],1)],2,[(false,scheme ++ 97 :: domain)]⟩),
        Stream'.const (Draw.at 0 1 Nat.one_pos)) := by
    have drawn : random.run oneRandom =
        some (Draw.at 1 2 Nat.one_lt_two,Stream'.const (Draw.at 0 1 Nat.one_pos)) := rfl
    have above : ¬ (Draw.at 1 2 Nat.one_lt_two).num * 20 < 2 * (Draw.at 1 2 Nat.one_lt_two).den := by decide
    rw [nextLine,bind_run,drawn,Option.bind_some,if_neg above,bind_run,url]
    rfl
  change ((nextLine 2 20 ⟨[([b],1)],2,[]⟩).run oneRandom).bind _ = _
  rw [line]
  change (fill 2 20 2 _).run _ = _
  rw [fill_fulfilled (by decide) (show (2 : Int) ≤ 2 by decide)]
  rfl

/-- A file of 20 bytes is asked for: a random line of 18 bytes, and then the URL `a`. -/
theorem generator_bounded_random :
    (gen_random_urls_file 20 (oneUrl [97] 1 Nat.one_pos).url_cnt).run oneRandom =
        some (randomFirst 97,Stream'.const (Draw.at 0 1 Nat.one_pos)) ∧
      Ended (oneUrl [97] 1 Nat.one_pos) 20 1024 (randomFirst 97) :=
  ⟨randomFirst_drawn 97,(generator_bounded (oneUrl [97] 1 Nat.one_pos) 20 1024 (by decide) (by decide)).results _ _ _
    (randomFirst_drawn 97)⟩

end TopNFreq.GenData
