import TopNFreq.Library.Packing
import TopNFreq.RunRefinement
import TopNFreq.Termination
import TopNFreq.GenFiles

/-! What a run takes: the number of its spill files, the bytes in them, and the bytes
of the pool while they are merged. -/
namespace TopNFreq
open Library.Text Library.InputStream Library.Loop Library.Packing IStream FileManager
open GenData (lineBytes lineBytes_perm lineBytes_cons lineBytes_append)
open TopNFreqUrls

/-! ## The number of batches -/

def volume (urls : List Bytes) : Nat := load List.length urls

theorem volume_flatten (urls : List Bytes) : volume urls = urls.flatten.length := List.length_flatten.symm

section Cutting
variable {limit : UInt64}

theorem refuses_iff (roomy : limit.toNat + MAX_URL_LEN ≤ 2^64) {held len : Nat} (fits : held ≤ limit.toNat)
    (short : len < MAX_URL_LEN) : limit < UInt64.ofNat (held + len) ↔ limit.toNat < held + len := by
  have small : held + len < UInt64.size := by
    simp only [UInt64.size]
    omega
  rw [UInt64.lt_iff_toNat_lt,UInt64.toNat_ofNat_of_lt' small]

/-- Where no sum of sizes wraps around the batches are the greedy ones. -/
theorem cut_pack (roomy : limit.toNat + MAX_URL_LEN ≤ 2^64) (low : 1024 ≤ limit.toNat) (batch urls : List Bytes)
    (fits : volume batch ≤ limit.toNat) (short : ∀ url ∈ urls, url.length < MAX_URL_LEN) :
    cut limit batch urls = pack List.length limit.toNat batch urls := by
  induction urls generalizing batch with
  | nil => cases batch <;> rfl
  | cons url urls ih =>
    have len := short url List.mem_cons_self
    have later := fun other among => short other (List.mem_cons_of_mem _ among)
    have top : MAX_URL_LEN = 1025 := rfl
    rw [cut,pack,← volume_flatten]
    simp only [refuses_iff roomy fits len]
    change (if limit.toNat < volume batch + url.length then _ else _) = if limit.toNat < volume batch + url.length then _ else _
    split
    · rw [ih [url] (by rw [volume,load_singleton]; omega) later]
    · rename_i room
      refine ih _ ?_ later
      rw [volume,load_append,load_singleton]
      exact not_lt.mp room

end Cutting

/-! ## The bytes of the rows -/

theorem decimalInt_succ (c : Int32) : (decimalInt (c + 1).toInt).length ≤ (decimalInt c.toInt).length + 1 := by
  have upper := c.toInt_lt
  have lower := c.le_toInt
  by_cases wraps : c.toInt = 2^31 - 1
  · have last : c = Int32.maxValue := Int32.toInt_inj.mp wraps
    subst last
    decide
  · have next : (c + 1).toInt = c.toInt + 1 := by
      rw [Int32.toInt_add]
      exact Int.bmod_eq_of_le (by change _ ≤ c.toInt + 1; omega) (by change c.toInt + 1 < _; omega)
    rw [next]
    generalize c.toInt = z
    unfold decimalInt
    by_cases negative : z < 0
    · rw [if_pos negative]
      by_cases still : z + 1 < 0
      · have before : z.natAbs = (z + 1).natAbs + 1 := by omega
        rw [if_pos still,before,List.length_cons,List.length_cons]
        have shorter := decimal_mono (Nat.le_add_right (z + 1).natAbs 1)
        omega
      · have one : z = -1 := by omega
        subst one
        decide
    · have after : (z + 1).natAbs = z.natAbs + 1 := by omega
      rw [if_neg negative,if_neg (by omega),after]
      exact decimal_succ z.natAbs

theorem rowBytes_length (r : Bytes × Int32) : (rowBytes r).length = r.1.length + 2 + (decimalInt r.2.toInt).length := by
  simp only [rowBytes,List.length_append,List.length_cons,List.length_nil]
  omega

def rowsSize (rows : List (Bytes × Int32)) : Nat := (rows.flatMap rowBytes).length

theorem rowsSize_append (first second : List (Bytes × Int32)) :
    rowsSize (first ++ second) = rowsSize first + rowsSize second := by
  rw [rowsSize,List.flatMap_append,List.length_append]
  rfl

theorem rowsSize_singleton (r : Bytes × Int32) : rowsSize [r] = (rowBytes r).length := by
  rw [rowsSize,List.flatMap_singleton]

/-- Counting a URL adds at most twice the bytes of its line to the rows. -/
theorem count_size (runs : Runs) (url : Bytes) (nonempty : 1 ≤ url.length) :
    rowsSize (runs.count url).finish ≤ rowsSize runs.finish + 2 * (url.length + 1) := by
  have single : (decimalInt (1 : Int32).toInt).length = 1 := by decide
  have fresh : rowsSize [(url,1)] ≤ 2 * (url.length + 1) := by
    rw [rowsSize_singleton,rowBytes_length,single]
    dsimp only
    omega
  have counting : (1 : Int32) ≠ 0 := by decide
  unfold Runs.count Runs.finish
  by_cases none : runs.cnt = 0
  · rw [if_pos none,if_pos none,if_neg counting,rowsSize_append]
    exact Nat.add_le_add_left fresh _
  · rw [if_neg none,if_neg none]
    by_cases same : runs.url = url
    · rw [if_pos same]
      split
      · rw [rowsSize_append]
        exact (Nat.le_add_right _ _).trans (Nat.le_add_right _ _)
      · have longer := decimalInt_succ runs.cnt
        rw [rowsSize_append,rowsSize_append,rowsSize_singleton,rowsSize_singleton,rowBytes_length,rowBytes_length]
        dsimp only
        omega
    · rw [if_neg same,if_neg counting,rowsSize_append]
      exact Nat.add_le_add_left fresh _

theorem counts_size (urls : List Bytes) (nonempty : ∀ url ∈ urls, 1 ≤ url.length) (runs : Runs) :
    rowsSize (urls.foldl Runs.count runs).finish ≤ rowsSize runs.finish + 2 * lineBytes urls := by
  induction urls generalizing runs with
  | nil => exact le_rfl
  | cons url urls ih =>
    have one := count_size runs url (nonempty url List.mem_cons_self)
    have rest := ih (fun other among => nonempty other (List.mem_cons_of_mem _ among)) (runs.count url)
    rw [List.foldl_cons,lineBytes_cons]
    omega

theorem batchRows_size (batch : List Bytes) (nonempty : ∀ url ∈ batch, 1 ≤ url.length) :
    rowsSize (batchRows batch) ≤ 2 * lineBytes batch := by
  have same : (batch.insertionSort (· ≤ ·)).Perm batch := List.perm_insertionSort _ _
  have counted := counts_size _ (fun url member => nonempty url (same.mem_iff.mp member)) Runs.start
  rwa [lineBytes_perm same,show rowsSize Runs.start.finish = 0 from rfl,Nat.zero_add] at counted

theorem batches_size (batches : List (List Bytes)) (nonempty : ∀ batch ∈ batches, ∀ url ∈ batch, 1 ≤ url.length) :
    (batches.map fun batch => rowsSize (batchRows batch)).sum ≤ 2 * lineBytes batches.flatten := by
  induction batches with
  | nil => exact Nat.zero_le _
  | cons batch rest ih =>
    have first := batchRows_size batch (nonempty batch List.mem_cons_self)
    have others := ih fun other among => nonempty other (List.mem_cons_of_mem _ among)
    rw [List.map_cons,List.sum_cons,List.flatten_cons,lineBytes_append]
    omega

/-! ## The bytes of the input -/

/-- A URL that is read takes its bytes and one behind it, unless it ends the stream. -/
theorem ReadLine_takes (in_ rest : IStream) (url : Bytes) (read : ReadLine in_ MAX_URL_LEN newline = (rest,some url)) :
    rest.after.length + (url.length + 1) ≤ in_.after.length ∨ rest.after = [] ∧ url.length ≤ in_.after.length := by
  have room : 2 ≤ MAX_URL_LEN := by decide
  cases alive : in_.good with
  | false => simp [ReadLine_dead in_ MAX_URL_LEN newline alive] at read
  | true =>
    rw [(good_iff in_).mp alive] at read
    cases shown : in_.after.dropWhile (· = newline) with
    | nil =>
      have none := (ReadLine_nil in_.before in_.after in_.broken MAX_URL_LEN newline shown).1
      rw [read] at none
      cases none
    | cons c tail =>
      have whole : (in_.after.dropWhile (· = newline)).length ≤ in_.after.length := (List.dropWhile_suffix _).length_le
      obtain ⟨_,inside⟩ := line_length MAX_URL_LEN newline (c :: tail)
      rw [shown] at whole
      cases behind : (c :: tail).drop (line MAX_URL_LEN newline (c :: tail)).length with
      | nil =>
        obtain ⟨found,_,_,left⟩ :=
          ReadLine_last in_.before in_.after in_.broken MAX_URL_LEN newline c tail room shown behind
        rw [read] at found left
        cases broken : in_.broken with
        | true => simp [broken] at found
        | false =>
          simp only [broken,Bool.false_eq_true,if_false,Option.some.injEq] at found
          subst found
          exact .inr ⟨left,by omega⟩
      | cons d more =>
        obtain ⟨passed,same⟩ :=
          ReadLine_line in_.before in_.after in_.broken MAX_URL_LEN newline c d tail more room shown behind
        rw [same] at read
        cases read
        have lengths := congrArg List.length behind
        simp only [List.length_drop,List.length_cons] at lengths whole ⊢
        exact .inl (by omega)

theorem urlsOf_lineBytes (in_ : IStream) : lineBytes (urlsOf in_) ≤ in_.after.length + 1 := by
  generalize size : in_.after.length = count
  induction count using Nat.strongRecOn generalizing in_ with
  | ind count ih =>
    rcases read : ReadLine in_ MAX_URL_LEN newline with ⟨rest,_ | url⟩
    · rw [urlsOf_none in_ rest read]
      exact Nat.zero_le _
    · obtain ⟨_,_,_,taken⟩ := ReadLine_url in_ rest url read
      rw [urlsOf_some in_ rest url read,lineBytes_cons]
      rcases ReadLine_takes in_ rest url read with inside | ⟨ended,last⟩
      · have later := ih rest.after.length (by omega) rest rfl
        omega
      · have none : urlsOf rest = [] := by
          rcases again : ReadLine rest MAX_URL_LEN newline with ⟨after,_ | next⟩
          · exact urlsOf_none rest after again
          · obtain ⟨_,_,_,fewer⟩ := ReadLine_url rest after next again
            rw [ended] at fewer
            exact absurd fewer (Nat.not_lt_zero _)
        rw [none]
        change url.length + 1 + 0 ≤ count + 1
        omega

theorem inputUrls_lineBytes (env : Env) (content : Bytes) : lineBytes (inputUrls env content) ≤ content.length + 1 := by
  refine (urlsOf_lineBytes _).trans (Nat.add_le_add_right ?_ 1)
  cases env.faults.readInput with
  | none => exact le_rfl
  | some position => exact List.length_take_le' position content

theorem spillSize_wrote {disk later : Disk} {file : Bytes} {batches : List (List Bytes)}
    (wrote : Wrote disk file batches later) (nonempty : ∀ batch ∈ batches, ∀ url ∈ batch, 1 ≤ url.length) :
    spillSize later file batches.length ≤ 2 * lineBytes batches.flatten := by
  have sizes : (List.range batches.length).map (fun i => fileSize later (OutputFileName file i)) =
      batches.map fun batch => rowsSize (batchRows batch) := by
    refine List.ext_getElem (by simp) fun i _ bound => ?_
    simp only [List.length_map] at bound
    rw [List.getElem_map,List.getElem_map,List.getElem_range,fileSize,wrote.files i _ (List.getElem?_eq_getElem bound)]
    rfl
  rw [spillSize,sizes]
  exact batches_size batches nonempty

section Runs
variable {env : Env} {disk : Disk} {file content : Bytes} {num_results : Int32} {mem_limit : UInt64} {spilled : TopNFreqUrls}

theorem batch_url {batch : List Bytes} {url : Bytes} (inside : batch ∈ cut mem_limit [] (inputUrls env content))
    (member : url ∈ batch) : 1 ≤ url.length := (urlsOf_bounds _ url (mem_input inside member)).1

theorem head_batches (low : 1024 ≤ mem_limit.toNat) {n : Nat} {s : PartialState}
    (head : s = PartialSort.head env (started env disk file content num_results mem_limit) n)
    (sound : s.status ≠ .failed) :
    ∃ batches more, cut mem_limit [] (inputUrls env content) = batches ++ more ∧
      s.self.file_mgr_.output_files_ = batches.length ∧ Wrote disk file batches s.self.disk := by
  have state := head_state env _ (fresh_started env disk file content num_results mem_limit low) n
  have touched := head_frame env (started env disk file content num_results mem_limit) 0 n (Nat.zero_le n)
  rw [← head] at state touched
  obtain ⟨_,batches,_,_,_,batching⟩ := state.resolve_left fun failed => sound failed.1
  obtain ⟨files,wrote⟩ := batching.wrote touched
  exact ⟨batches,_,batching.cutting,files,wrote⟩

theorem head_passed (present : disk file = some content) (low : 1024 ≤ mem_limit.toNat)
    (passed : (TopNFreqUrls.new file num_results mem_limit disk).PartialSort env = (true,spilled)) (n : Nat) :
    (PartialSort.head env (started env disk file content num_results mem_limit) n).status ≠ .failed :=
  ((head_state env _ (fresh_started env disk file content num_results mem_limit low) n).resolve_left fun failed =>
    (passed_batches present low passed).1 failed.2).1

theorem input_pack (env : Env) (content : Bytes) (low : 1024 ≤ mem_limit.toNat)
    (roomy : mem_limit.toNat + MAX_URL_LEN ≤ 2^64) :
    cut mem_limit [] (inputUrls env content) = pack List.length mem_limit.toNat [] (inputUrls env content) :=
  cut_pack roomy low [] _ (Nat.zero_le _) fun url member => (urlsOf_bounds _ url member).2.1

theorem input_short (env : Env) (content : Bytes) : ∀ url ∈ inputUrls env content, url.length ≤ 1024 :=
  fun url member => Nat.le_of_lt_succ (urlsOf_bounds _ url member).2.1

theorem files_filled (env : Env) (content : Bytes) (low : 1024 ≤ mem_limit.toNat)
    (roomy : mem_limit.toNat + MAX_URL_LEN ≤ 2^64) :
    ((cut mem_limit [] (inputUrls env content)).length - 1) * (mem_limit.toNat - 1023) ≤
      volume (inputUrls env content) := by
  have full := @pack_count _ List.length mem_limit.toNat 1024 [] _ (input_short env content)
  have gap : mem_limit.toNat + 1 - 1024 = mem_limit.toNat - 1023 := by omega
  rwa [load_nil,Nat.zero_add,gap,← input_pack env content low roomy] at full

end Runs

/-- No way to cut the URLs into batches that fit in the pool gives fewer spill files than
the first stage writes, and the URLs of every file but the last have more bytes than the limit less 1024. -/
theorem spill_files_fewest (env : Env) (disk : Disk) (file content : Bytes) (present : disk file = some content)
    (num_results : Int32) (mem_limit : UInt64) (low : 1024 ≤ mem_limit.toNat)
    (roomy : mem_limit.toNat + MAX_URL_LEN ≤ 2^64) (spilled : TopNFreqUrls)
    (passed : (TopNFreqUrls.new file num_results mem_limit disk).PartialSort env = (true,spilled)) :
    (∀ parts : List (List Bytes), parts.flatten = inputUrls env content →
      (∀ part ∈ parts, volume part ≤ mem_limit.toNat) → spilled.file_mgr_.TotalOutputFiles ≤ parts.length) ∧
    volume (inputUrls env content) ≤ spilled.file_mgr_.TotalOutputFiles * mem_limit.toNat ∧
    (spilled.file_mgr_.TotalOutputFiles - 1) * (mem_limit.toNat - 1023) ≤ volume (inputUrls env content) ∧
    ∀ i batch, (cut mem_limit [] (inputUrls env content))[i]? = some batch →
      spilled.disk (OutputFileName file i) = some ((batchRows batch).flatMap rowBytes) ∧
      (i + 1 < spilled.file_mgr_.TotalOutputFiles → mem_limit.toNat < volume batch + 1024) := by
  have count : spilled.file_mgr_.TotalOutputFiles = (cut mem_limit [] (inputUrls env content)).length :=
    (run_footprint present low passed).count
  have files := (run_footprint present low passed).written.files
  rw [input_pack env content low roomy] at count files ⊢
  rw [count]
  refine ⟨fun parts same fits => ?_,?_,?_,fun i batch found => ⟨files i batch found,fun inside => ?_⟩⟩
  · rw [← same]
    exact pack_fewest parts fits
  · have whole := @pack_flatten _ List.length mem_limit.toNat [] (inputUrls env content)
    have fits := @pack_fits _ List.length mem_limit.toNat [] (inputUrls env content)
      (fun url member => (input_short env content url member).trans low) (Nat.zero_le _)
    generalize pack List.length mem_limit.toNat [] (inputUrls env content) = parts at whole fits
    rw [← List.nil_append (inputUrls env content),← whole,volume,load_flatten]
    have each := List.sum_le_card_nsmul (parts.map (load List.length)) mem_limit.toNat fun sum member => by
      obtain ⟨part,inside,rfl⟩ := List.mem_map.mp member
      exact fits part inside
    rwa [List.length_map,nsmul_eq_mul,Nat.cast_id] at each
  · rw [← input_pack env content low roomy]
    exact files_filled env content low roomy
  · refine @pack_full _ List.length mem_limit.toNat 1024 [] _ (input_short env content) batch ?_
    rw [List.dropLast_eq_take]
    exact List.mem_of_getElem? ((List.getElem?_take_of_lt (by omega)).trans found)

/-- Four lines of 600 bytes, no two of which fit in one file. -/
theorem spill_files_fewest_four :
    ∃ spilled, (TopNFreqUrls.new [105] 2 1024 (oneFile longLines)).PartialSort Env.reference = (true,spilled) ∧
      spilled.file_mgr_.TotalOutputFiles ≤ 4 ∧ 2400 ≤ spilled.file_mgr_.TotalOutputFiles * 1024 := by
  have present : oneFile longLines [105] = some longLines := Function.update_self ..
  obtain ⟨spilled,passed⟩ := PartialSort_passes Env.reference (oneFile longLines) [105] longLines 2 1024
    Env.reference_sound present (by decide)
  obtain ⟨fewest,room,_⟩ := spill_files_fewest Env.reference (oneFile longLines) [105] longLines present 2 1024
    (by decide) (by decide) spilled passed
  have lines : inputUrls Env.reference longLines = [longLine 98,longLine 97,longLine 99,longLine 99] := by
    decide +kernel
  have bytes : volume [longLine 98,longLine 97,longLine 99,longLine 99] = 2400 := by decide +kernel
  rw [lines] at fewest room
  rw [bytes] at room
  exact ⟨spilled,passed,fewest [[longLine 98],[longLine 97],[longLine 99],[longLine 99]] rfl (by decide +kernel),room⟩

/-- While the first stage runs, also if it is going to fail, and after it, the spill files take at most
twice the bytes of the input, however often a URL occurs and wherever the batches end. -/
theorem spill_volume_bounded (env : Env) (disk : Disk) (file content : Bytes) (present : disk file = some content)
    (num_results : Int32) (mem_limit : UInt64) (low : 1024 ≤ mem_limit.toNat) :
    (∀ n s, s = PartialSort.head env (started env disk file content num_results mem_limit) n → s.status ≠ .failed →
      spillSize s.self.disk file s.self.file_mgr_.output_files_ ≤ 2 * (content.length + 1)) ∧
    ∀ spilled, (TopNFreqUrls.new file num_results mem_limit disk).PartialSort env = (true,spilled) →
      (∀ n, (PartialSort.head env (started env disk file content num_results mem_limit) n).status ≠ .failed) ∧
      spillSize spilled.disk file spilled.file_mgr_.output_files_ ≤ 2 * (content.length + 1) := by
  have all : (cut mem_limit [] (inputUrls env content)).flatten = inputUrls env content := cut_flatten mem_limit [] _
  have input := inputUrls_lineBytes env content
  have nonempty : ∀ batch ∈ cut mem_limit [] (inputUrls env content), ∀ url ∈ batch, 1 ≤ url.length :=
    fun batch inside url member => batch_url inside member
  refine ⟨fun n s head sound => ?_,fun spilled passed => ⟨head_passed present low passed,?_⟩⟩
  · obtain ⟨batches,more,cutting,files,wrote⟩ := head_batches low head sound
    rw [cutting] at nonempty
    rw [cutting,List.flatten_append] at all
    have size := spillSize_wrote wrote fun batch inside => nonempty batch (List.mem_append_left _ inside)
    rw [← all,lineBytes_append] at input
    rw [files]
    omega
  · have footprint := run_footprint present low passed
    have wrote : Wrote disk file (cut mem_limit [] (inputUrls env content)) spilled.disk := footprint.written
    have size := spillSize_wrote wrote nonempty
    rw [all,← footprint.count] at size
    omega

theorem spill_volume_bounded_three :
    ∃ spilled, (TopNFreqUrls.new [105] 2 1024 (oneFile [97,10,98,10,99])).PartialSort Env.reference = (true,spilled) ∧
      spillSize spilled.disk [105] spilled.file_mgr_.output_files_ ≤ 12 := by
  obtain ⟨spilled,passed⟩ := PartialSort_passes Env.reference (oneFile [97,10,98,10,99]) [105] [97,10,98,10,99] 2 1024
    Env.reference_sound (Function.update_self ..) (by decide)
  obtain ⟨_,bounded⟩ := spill_volume_bounded Env.reference (oneFile [97,10,98,10,99]) [105] [97,10,98,10,99]
    (Function.update_self ..) 2 1024 (by decide)
  exact ⟨spilled,passed,(bounded spilled passed).2⟩

/-! ## The pool of the second stage -/

theorem Arena.Owns.bytes_le {a : Arena} {strings : List StringVal} (owns : a.Owns strings) :
    a.chunks.bytes ≤ strings.length * 1024 := by
  have each := List.sum_le_card_nsmul (strings.map StringVal.len) 1024 fun len member => by
    obtain ⟨v,inside,rfl⟩ := List.mem_map.mp member
    exact Nat.le_of_lt_succ (owns.bounds v inside).2
  rwa [List.length_map,nsmul_eq_mul,Nat.cast_id,← StringVal.total,← owns.bytes] at each

namespace TopNFreqUrls

theorem StageAt.bytes {env : Env} {start : TopNFreqUrls} {streams : Nat → IStream} {k : Nat} {s : MergeState}
    {lost : List StringVal} {files : Nat → List (Bytes × Int32)} (at_ : StageAt env start streams k s lost files) :
    s.self.arena.chunks.bytes ≤ (k + start.limit + 1 + vanishing (s.taken.map Entry.row)) * 1024 := by
  refine at_.ready.owns.bytes_le.trans (Nat.mul_le_mul_right 1024 ?_)
  have heap : s.self.file_merger_.res_tuples_heap_.length ≤ k := by
    have inside : s.self.file_merger_.res_tuples_heap_.map ResultTuple.file_index ⊆ List.range k := by
      intro i member
      obtain ⟨t,memberT,rfl⟩ := List.mem_map.mp member
      exact List.mem_range.mpr (at_.files ▸ (at_.ready.filed t memberT).1)
    simpa using (at_.ready.indexes.subperm inside).length_le
  have best : s.topN_tuples.length ≤ start.limit := by
    have bounded := at_.represents.bounded
    rwa [limit,at_.num_results_] at bounded
  have held : (holders s.curr_tuple s.topN_tuples).length ≤ start.limit + 1 := by
    rw [holders,List.length_append,List.length_map]
    split <;> simp only [List.length_nil,List.length_singleton] <;> omega
  rw [List.length_append,List.length_append,List.length_map,at_.vanished]
  omega

end TopNFreqUrls

end TopNFreq
