import TopNFreq.RunRefinement

/-! Reads that fail and that the program does not report: what they lose or spoil
stays with the URLs that would have been read there. -/
namespace TopNFreq
open Library.Text Library.InputStream Library.Interleaving IStream FileManager TopNFreqUrls

section Rows
variable {batch : List Bytes} {rows : List (Bytes × Int32)}

theorem rowsIn_text {in_ : IStream} {text : Bytes} (holds : Holds in_ text) (shape : RowText rows text)
    (readable : ∀ r ∈ rows, RowReadable r) (prior : Int32) : rowsIn prior in_ = rows := by
  induction rows generalizing in_ text with
  | nil =>
    obtain rfl := shape.nil_text
    exact rowsIn_none (readRow_empty holds prior)
  | cons r rows ih =>
    obtain ⟨next,more,found,later,rest⟩ := readRow_text holds r rows (readable r List.mem_cons_self) shape prior
    rw [rowsIn_some found,ih later rest fun r member => readable r (List.mem_cons_of_mem _ member)]

variable (bounds : ∀ url ∈ batch, 1 ≤ url.length ∧ url.length < MAX_URL_LEN) (clean : ∀ url ∈ batch, tab ∉ url)
  {faults : Faults} {j : Nat} (read : Readings (spillStream faults j batch) rows)
include bounds clean read

/-- Whatever fails, the URLs read from a spill file are the first ones of its batch. -/
theorem Readings.first : rows.map Prod.fst <+: (batchRows batch).map Prod.fst := by
  have readable : ∀ r ∈ batchRows batch, RowReadable r := fun r member =>
    ⟨List.length_pos_iff.mp (bounds _ (mem_of_row member)).1,(bounds _ (mem_of_row member)).2,clean _ (mem_of_row member)⟩
  have whole : rowsIn 0 (spillStream Faults.none j batch) = batchRows batch :=
    rowsIn_text (holds_opened _) (rowText_flatMap _) readable 0
  rw [read.urls 0,← whole]
  rcases spillStream_shown faults batch with alike | shown
  · rw [alike]
  · exact rowsIn_shown 0 _ _ shown

theorem Readings.ascending : rows.Pairwise urlLe := by
  have sorted : ((batchRows batch).map Prod.fst).Pairwise (· ≤ ·) := List.pairwise_map.mpr (batchRows_ascending batch)
  have shorter := sorted.sublist (read.first bounds clean).sublist
  rw [List.pairwise_map] at shorter
  exact shorter

end Rows

section Files
variable {batches : List (List Bytes)} {files : Nat → List (Bytes × Int32)}

end Files

end TopNFreq
