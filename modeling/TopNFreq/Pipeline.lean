import TopNFreq.AnswerFile

/-! The test procedure: an answer file is read, an input file is generated from it, and
the program prints an answer for that file. -/
namespace TopNFreq
open Library.Text Library.InputStream Library.Draws IStream TopNFreqUrls

/-! ## The best rows among others -/

/-- The rows that are left out rank behind the best. -/
theorem bestRows_least {n : Nat} {rows : List (Bytes × Int32)} {a r : Bytes × Int32} (best : a ∈ bestRows n rows)
    (among : r ∈ rows) (left : r ∉ bestRows n rows) : rowRank a ≤ rowRank r := by
  have sorted := sorted_rowRanks rows
  have same : (rows.insertionSort fun a b => rowRank a ≤ rowRank b).Perm rows := List.perm_insertionSort _ rows
  rw [bestRows] at best left
  generalize (rows.insertionSort fun a b => rowRank a ≤ rowRank b) = all at sorted same best left
  rw [← List.take_append_drop n all,List.map_append] at sorted
  have behind : r ∈ all.drop n := by
    have member := same.mem_iff.mpr among
    rw [← List.take_append_drop n all] at member
    exact (List.mem_append.mp member).resolve_left left
  exact (List.pairwise_append.mp sorted).2.2 _ (List.mem_map_of_mem best) _ (List.mem_map_of_mem behind)

/-- Rows that rank before all the others are the best ones. -/
theorem bestRows_front {rows front others : List (Bytes × Int32)} (same : rows.Perm (front ++ others))
    (before : ∀ a ∈ front, ∀ r ∈ others, rowRank a ≤ rowRank r) : (bestRows front.length rows).Perm front := by
  have first : (front.insertionSort fun a b => rowRank a ≤ rowRank b).Perm front := List.perm_insertionSort _ front
  have second : (others.insertionSort fun a b => rowRank a ≤ rowRank b).Perm others := List.perm_insertionSort _ others
  have parts : rows.insertionSort (fun a b => rowRank a ≤ rowRank b) =
      front.insertionSort (fun a b => rowRank a ≤ rowRank b) ++ others.insertionSort (fun a b => rowRank a ≤ rowRank b) := by
    refine List.map_injective_iff.mpr rowRank_injective ?_
    refine List.Perm.eq_of_pairwise (fun _ _ _ _ => le_antisymm) (sorted_rowRanks rows) ?_ (List.Perm.map _ ?_)
    · rw [List.map_append]
      refine List.pairwise_append.mpr ⟨sorted_rowRanks front,sorted_rowRanks others,?_⟩
      rintro _ inFront _ inOthers
      obtain ⟨a,memberA,rfl⟩ := List.mem_map.mp inFront
      obtain ⟨r,memberR,rfl⟩ := List.mem_map.mp inOthers
      exact before a (first.mem_iff.mp memberA) r (second.mem_iff.mp memberR)
    · exact (List.perm_insertionSort _ rows).trans (same.trans (first.append second).symm)
  rw [bestRows,parts,← first.length_eq,List.take_left]
  exact first

namespace GenData

/-! ## The file and its lines -/

def fileText (s : Filling) : Bytes := unlines (lines s)

theorem urls_unlines (urls : List Bytes) (plain : ∀ url ∈ urls, Plain url)
    (short : ∀ url ∈ urls, url.length < TopNFreq.MAX_URL_LEN) : (linesOf (unlines urls)).flatMap chop = urls := by
  induction urls with
  | nil => rfl
  | cons url urls ih =>
    have own := plain url List.mem_cons_self
    have clean : newline ∉ url := fun member => Bool.noConfusion (own.solid newline member)
    rw [unlines,List.flatMap_cons,List.append_assoc,List.singleton_append,pieces_line url _ clean,← unlines,
      ih (fun other among => plain other (List.mem_cons_of_mem _ among))
        fun other among => short other (List.mem_cons_of_mem _ among),
      chop_short url own.nonempty (short url List.mem_cons_self)]
    rfl

theorem lines_parts (s : Filling) : (lines s).Perm (givenLines s.res_file ++ randomLines s) := by
  rw [lines,givenLines,randomLines,← List.map_append]
  exact ((List.filter_append_perm Prod.fst s.res_file).symm).map Prod.snd

theorem RandomUrl.plain {url : Bytes} (random : RandomUrl url) : Plain url := by
  refine ⟨?_,fun b member => ?_⟩
  · rintro rfl
    exact absurd random.long (by decide)
  · have above := random.graphic b member
    simp only [isSpace,Bool.or_eq_false_iff,decide_eq_false_iff_not,Bool.and_eq_false_iff]
    omega

/-- The rows that the answer asks for. -/
def answerRows (answer : Answer) : List (Bytes × Int32) :=
  answer.url_cnt.map fun given => (given.1,Int32.ofNat given.2)

/-- No random URL is one of the answer, and none comes before a URL of the answer. -/
def Unspoiled (answer : Answer) (s : Filling) : Prop :=
  ∀ url ∈ randomLines s, ∀ given ∈ answer.url_cnt, url ≠ given.1 ∧
    ((randomLines s).count url < given.2 ∨ (randomLines s).count url = given.2 ∧ given.1 < url)

section Oracle
variable {answer : Answer} {s : Filling}

theorem count_line (realised : Realised answer s) {given : Bytes × Nat} (inside : given ∈ answer.url_cnt) :
    (lines s).count given.1 = given.2 + (randomLines s).count given.1 := by
  rw [(lines_parts s).count_eq,List.count_append,realised given inside]

theorem count_random (from_answer : (givenLines s.res_file).Subperm (copies answer.url_cnt)) {url : Bytes}
    (other : url ∉ answer.url_cnt.map Prod.fst) : (lines s).count url = (randomLines s).count url := by
  rw [(lines_parts s).count_eq,List.count_append,List.count_eq_zero_of_not_mem,Nat.zero_add]
  intro member
  exact other (mem_copies (from_answer.subset member))

theorem rowRank_le_iff {a b : Bytes} {m n : Nat} (first : m < 2^31) (second : n < 2^31) :
    rowRank (a,Int32.ofNat m) ≤ rowRank (b,Int32.ofNat n) ↔ n < m ∨ m = n ∧ a ≤ b := by
  have ranks (url : Bytes) {k : Nat} (small : k < 2^31) :
      rowRank (url,Int32.ofNat k) = toLex (OrderDual.toDual (k : Int),url) := by
    rw [rowRank,rankOf,Int32.toInt_ofNat_of_lt small]
  rw [ranks a first,ranks b second,Prod.Lex.le_iff]
  dsimp only [ofLex_toLex]
  rw [OrderDual.toDual_lt_toDual,OrderDual.toDual_inj,Int.ofNat_lt,Int.ofNat_inj]

theorem ofNat_positive {n : Nat} (positive : 0 < n) (small : n < 2^31) : Int32.ofNat n ≠ 0 := by
  rw [Ne,ofNat_eq_zero_iff,Nat.mod_eq_of_lt (small.trans (by decide))]
  exact positive.ne'

theorem ofNat_small {m n : Nat} (first : m < 2^31) (second : n < 2^31) (same : Int32.ofNat m = Int32.ofNat n) : m = n := by
  have values := congrArg Int32.toInt same
  rwa [Int32.toInt_ofNat_of_lt first,Int32.toInt_ofNat_of_lt second,Int.ofNat_inj] at values

theorem count_small (few : (lines s).length < 2^31) (url : Bytes) : (lines s).count url < 2^31 :=
  List.count_le_length.trans_lt few

theorem given_small (realised : Realised answer s) (few : (lines s).length < 2^31) {given : Bytes × Nat}
    (inside : given ∈ answer.url_cnt) : given.2 < 2^31 := by
  have count := count_line realised inside
  have small := count_small few given.1
  omega

/-- Where no random URL gets in the way the rows of the lines are those of the answer
and of the random lines. -/
theorem Unspoiled.rows (unspoiled : Unspoiled answer s) (realised : Realised answer s)
    (from_answer : (givenLines s.res_file).Subperm (copies answer.url_cnt)) (few : (lines s).length < 2^31) :
    (wrapped (lines s)).Perm (answerRows answer ++ wrapped (randomLines s)) := by
  have keys : (answerRows answer).map Prod.fst = answer.url_cnt.map Prod.fst := by
    rw [answerRows,List.map_map]
    rfl
  have apart : ∀ given ∈ answer.url_cnt, given.1 ∉ randomLines s :=
    fun given inside member => (unspoiled given.1 member given inside).1 rfl
  have distinct : (answerRows answer ++ wrapped (randomLines s)).Nodup := by
    refine List.nodup_append.mpr ⟨List.Nodup.of_map Prod.fst (keys ▸ answer.distinct),wrapped_nodup _,?_⟩
    rintro a inAnswer _ inRandom rfl
    obtain ⟨given,inside,rfl⟩ := List.mem_map.mp inAnswer
    exact apart given inside (wrapped_url inRandom)
  refine (List.perm_ext_iff_of_nodup (wrapped_nodup _) distinct).mpr fun r => ?_
  rw [List.mem_append,mem_wrapped,mem_wrapped]
  by_cases known : r.1 ∈ answer.url_cnt.map Prod.fst
  · obtain ⟨given,inside,same⟩ := List.mem_map.mp known
    have none : (randomLines s).count given.1 = 0 := List.count_eq_zero_of_not_mem (apart given inside)
    have count := count_line realised inside
    rw [← same,count,none,Nat.add_zero]
    constructor
    · rintro ⟨cnt,_⟩
      exact .inl (List.mem_map.mpr ⟨given,inside,Prod.ext same cnt.symm⟩)
    · rintro (member | ⟨cnt,nonzero⟩)
      · obtain ⟨other,among,rfl⟩ := List.mem_map.mp member
        have equal : given = other := List.inj_on_of_nodup_map answer.distinct inside among same
        subst equal
        exact ⟨rfl,ofNat_positive (answer.positive _ inside) (given_small realised few inside)⟩
      · exact absurd cnt nonzero
  · rw [count_random from_answer known]
    refine ⟨fun counted => .inr counted,fun either => either.resolve_left fun member => known ?_⟩
    exact keys ▸ List.mem_map_of_mem member

theorem wrapped_random {url : Bytes} {urls : List Bytes} (member : url ∈ urls) (small : urls.count url < 2^31) :
    (url,Int32.ofNat (urls.count url)) ∈ wrapped urls :=
  (mem_wrapped urls _).mpr ⟨rfl,ofNat_positive (List.count_pos_iff.mpr member) small⟩

/-- The best rows of the lines, as many as the answer has, are the answer just where no
random URL gets in its way. -/
theorem unspoiled_iff (realised : Realised answer s)
    (from_answer : (givenLines s.res_file).Subperm (copies answer.url_cnt)) (few : (lines s).length < 2^31) :
    (bestRows answer.url_cnt.length (wrapped (lines s))).Perm (answerRows answer) ↔ Unspoiled answer s := by
  have size : (answerRows answer).length = answer.url_cnt.length := List.length_map _
  constructor
  · intro same url random given inside
    have best : (given.1,Int32.ofNat given.2) ∈ bestRows answer.url_cnt.length (wrapped (lines s)) :=
      same.mem_iff.mpr (List.mem_map_of_mem inside)
    have small := given_small realised few inside
    have positive := List.count_pos_iff.mpr random
    have exact (other : Bytes × Nat) (among : other ∈ answer.url_cnt) : url ≠ other.1 := by
      rintro rfl
      have row : (other.1,Int32.ofNat other.2) ∈ wrapped (lines s) :=
        bestRows_subset (same.mem_iff.mpr (List.mem_map_of_mem among))
      have count := ofNat_small (given_small realised few among) (count_small few _) ((mem_wrapped _ _).mp row).1
      have parts := count_line realised among
      dsimp only at count
      omega
    have unknown : url ∉ answer.url_cnt.map Prod.fst := by
      intro member
      obtain ⟨other,among,same⟩ := List.mem_map.mp member
      exact exact other among same.symm
    have count := count_random from_answer unknown
    have line : url ∈ lines s := mem_lines.mpr (.inr random)
    have row := wrapped_random line (count_small few url)
    have left : (url,Int32.ofNat ((lines s).count url)) ∉ bestRows answer.url_cnt.length (wrapped (lines s)) := by
      intro member
      obtain ⟨other,among,key⟩ := List.mem_map.mp (same.mem_iff.mp member)
      exact exact other among (congrArg Prod.fst key).symm
    have rank := (rowRank_le_iff small (count_small few url)).mp (bestRows_least best row left)
    rw [count] at rank
    refine ⟨exact given inside,rank.imp_right fun tie => ⟨tie.1.symm,lt_of_le_of_ne tie.2 fun same => ?_⟩⟩
    exact exact given inside same.symm
  · intro unspoiled
    rw [← size]
    refine bestRows_front (unspoiled.rows realised from_answer few) ?_
    intro a inAnswer r inRandom
    obtain ⟨given,inside,rfl⟩ := List.mem_map.mp inAnswer
    obtain ⟨cnt,_⟩ := (mem_wrapped _ _).mp inRandom
    have fewer : (randomLines s).count r.1 < 2^31 := by
      refine lt_of_le_of_lt ?_ (count_small few r.1)
      rw [(lines_parts s).count_eq,List.count_append]
      exact Nat.le_add_left _ _
    have shape : r = (r.1,Int32.ofNat ((randomLines s).count r.1)) := Prod.ext rfl cnt
    rw [shape,rowRank_le_iff (given_small realised few inside) fewer]
    obtain ⟨_,before⟩ := unspoiled r.1 (wrapped_url inRandom) given inside
    exact before.imp_right fun tie => ⟨tie.1.symm,tie.2.le⟩

end Oracle

/-- What has been read, as an answer. -/
def WellFormed.answer {res : List (Bytes × Int)} (formed : WellFormed res) (positive : ∀ item ∈ res, 0 < item.2) :
    Answer where
  url_cnt := res.map fun item => (item.1,item.2.toNat)
  distinct := by
    rw [List.map_map]
    exact formed.distinct
  positive := by
    intro given inside
    obtain ⟨item,member,rfl⟩ := List.mem_map.mp inside
    have count := positive item member
    dsimp only
    omega

end GenData

open GenData

theorem printed_unspoiled {answer : Answer} {s : Filling} (plain : ∀ given ∈ answer.url_cnt, Plain given.1)
    (short : ∀ given ∈ answer.url_cnt, given.1.length ≤ 1024) (nonempty : answer.url_cnt ≠ [])
    (realised : Realised answer s)
    (from_answer : (givenLines s.res_file).Subperm (copies answer.url_cnt)) (random : ∀ url ∈ randomLines s, RandomUrl url)
    (few : (lines s).length < 2^31) (env : Env) (sound : env.faults = Faults.none) (mem_limit : UInt64)
    (low : 1024 ≤ mem_limit.toNat) (disk : Disk) (file : Bytes) (present : disk file = some (fileText s)) :
    ((TopNFreqUrls.new file (Int32.ofNat answer.url_cnt.length) mem_limit disk).Run env).1 =
        some ((bestRows answer.url_cnt.length (wrapped (lines s))).map resultLine) ∧
      ∀ url ∈ lines s, Plain url := by
  have urls : ∀ url ∈ lines s, Plain url ∧ url.length ≤ 1024 := by
    intro url member
    rcases mem_lines.mp member with given | drawn
    · obtain ⟨entry,inside,rfl⟩ := List.mem_map.mp (mem_copies (from_answer.subset given))
      exact ⟨plain entry inside,short entry inside⟩
    · exact ⟨(random url drawn).plain,(random url drawn).short⟩
  have input : inputUrls env (fileText s) = lines s := by
    rw [inputUrls,sound,show Faults.none.readInput = none from rfl,urlsOf_holds _ _ (holds_opened _)]
    exact urls_unlines _ (fun url member => (urls url member).1) fun url member => Nat.lt_succ_of_le (urls url member).2
  have size : answer.url_cnt.length < 2^31 := by
    have inside : answer.url_cnt.map Prod.fst ⊆ lines s := by
      intro url member
      obtain ⟨given,among,rfl⟩ := List.mem_map.mp member
      refine mem_lines.mpr (.inl (List.count_pos_iff.mp ?_))
      rw [realised given among]
      exact answer.positive given among
    have fewer := (answer.distinct.subperm inside).length_le
    rw [List.length_map] at fewer
    exact fewer.trans_lt few
  have outcome := run_outcome env disk file (fileText s) present (Int32.ofNat answer.url_cnt.length) mem_limit low
  have number : (Int32.ofNat answer.url_cnt.length).toInt = answer.url_cnt.length := Int32.toInt_ofNat_of_lt size
  have positive := List.length_pos_iff.mpr nonempty
  rw [limit_positive file _ mem_limit disk (by omega),number,Int.toNat_natCast] at outcome
  have clean : ∀ url ∈ inputUrls env (fileText s), tab ∉ url := fun url member =>
    tab_space (urls url (input ▸ member)).1.solid
  have printed := outcome.modulo (silent_of_sound sound _ _) (fun j => sound ▸ rfl) (fun j => sound ▸ rfl) clean
  rw [input] at printed
  exact ⟨printed,fun url member => (urls url member).1⟩

/-- The test procedure: an answer file is read and, whatever is drawn, the generator has taken all
lines of the answer when it ends. Then the program prints for the generated file what reads
back as that answer, just where no random URL gets in its way. -/
theorem generated_file_tests (text : Bytes) (res : List (Bytes × Int)) (read : readAnswer text = some res)
    (nonempty : res ≠ []) (positive : ∀ item ∈ res, 0 < item.2) (short : ∀ item ∈ res, item.1.length ≤ 1024)
    (file_size : Nat) (env : Env) (sound : env.faults = Faults.none) (mem_limit : UInt64) (low : 1024 ≤ mem_limit.toNat) :
    Whenever (gen_random_urls_file file_size (res.map fun item => (item.1,item.2.toNat))) fun s =>
      Realised ((readAnswer_formed text res read).answer positive) s → (lines s).length < 2^31 →
      ∀ disk file, disk file = some (fileText s) →
        ∃ printed, ((TopNFreqUrls.new file (Int32.ofNat res.length) mem_limit disk).Run env).1 = some printed ∧
          ((∃ back, readAnswer (unlines printed) = some back ∧ back.Perm res) ↔
            Unspoiled ((readAnswer_formed text res read).answer positive) s) := by
  generalize built : (readAnswer_formed text res read).answer positive = answer
  have items : answer.url_cnt = res.map fun item => (item.1,item.2.toNat) := by
    rw [← built]
    rfl
  have plain : ∀ given ∈ answer.url_cnt, Plain given.1 ∧ given.1.length ≤ 1024 := by
    rw [items]
    intro given inside
    obtain ⟨item,member,rfl⟩ := List.mem_map.mp inside
    exact ⟨(readAnswer_formed text res read).plain item member,short item member⟩
  have count : answer.url_cnt.length = res.length := by rw [items,List.length_map]
  have ended : Whenever (gen_random_urls_file file_size answer.url_cnt) (Ended answer file_size 1024) :=
    whenever_file answer file_size (by decide) fun given inside => (plain given inside).2
  rw [← items,← count]
  apply ended.imp
  intro s past realised few disk file present
  obtain ⟨printed,urls⟩ := printed_unspoiled (fun given inside => (plain given inside).1)
    (fun given inside => (plain given inside).2)
    (List.ne_nil_of_length_pos (count ▸ List.length_pos_iff.mpr nonempty)) realised past.given past.random few env sound
    mem_limit low disk file present
  refine ⟨_,printed,?_⟩
  rw [readAnswer_best _ _ urls,← unspoiled_iff realised past.given few]
  have exact : exactCounts (answerRows answer) = res := by
    rw [answerRows,items,exactCounts,List.map_map,List.map_map]
    refine (List.map_congr_left fun item member => ?_).trans (List.map_id res)
    have small := given_small realised few (items ▸ List.mem_map_of_mem member : (item.1,item.2.toNat) ∈ answer.url_cnt)
    have above := positive item member
    dsimp only [Function.comp_apply,id] at small ⊢
    rw [Int32.toInt_ofNat_of_lt small,Int.toNat_of_nonneg above.le]
  constructor
  · rintro ⟨back,same,perm⟩
    rw [← Option.some.inj same] at perm
    rw [← exact] at perm
    exact (List.map_perm_map_iff exactCount_injective).mp perm
  · intro same
    exact ⟨_,rfl,exact ▸ same.map _⟩

/-- One random line, `http://www.a.com?`, stands before the URL of the answer. The URL `a` is smaller
and is printed, `z` is larger and is not. -/
theorem generated_file_tests_two :
    (∃ printed, ((TopNFreqUrls.new [105] 1 1024 (oneFile (fileText (randomFirst 97)))).Run Env.reference).1 =
      some printed ∧ ∃ back, readAnswer (unlines printed) = some back ∧ back.Perm [([97],1)]) ∧
    ∃ printed, ((TopNFreqUrls.new [105] 1 1024 (oneFile (fileText (randomFirst 122)))).Run Env.reference).1 =
      some printed ∧ ¬ ∃ back, readAnswer (unlines printed) = some back ∧ back.Perm [([122],1)] := by
  have first : readAnswer [97,32,49,10] = some [([97],1)] := by decide +kernel
  have second : readAnswer [122,32,49,10] = some [([122],1)] := by decide +kernel
  have realised (b : Byte) : Realised (oneUrl [b] 1 Nat.one_pos) (randomFirst b) :=
    List.forall_mem_singleton.mpr List.count_singleton_self
  have front : Unspoiled (oneUrl [97] 1 Nat.one_pos) (randomFirst 97) := by
    unfold Unspoiled
    decide +kernel
  have behind : ¬ Unspoiled (oneUrl [122] 1 Nat.one_pos) (randomFirst 122) := by
    unfold Unspoiled
    decide +kernel
  obtain ⟨printed,prints,back⟩ := (generated_file_tests [97,32,49,10] [([97],1)] first (by decide) (by decide)
    (by decide) 20 Env.reference rfl 1024 (by decide)).results _ _ _ (randomFirst_drawn 97) (realised 97) (by decide)
    (oneFile (fileText (randomFirst 97))) [105] (Function.update_self ..)
  obtain ⟨others,answers,spoilt⟩ := (generated_file_tests [122,32,49,10] [([122],1)] second (by decide) (by decide)
    (by decide) 20 Env.reference rfl 1024 (by decide)).results _ _ _ (randomFirst_drawn 122) (realised 122) (by decide)
    (oneFile (fileText (randomFirst 122))) [105] (Function.update_self ..)
  exact ⟨⟨printed,prints,back.mpr front⟩,others,answers,spoilt.not.mpr behind⟩

end TopNFreq
