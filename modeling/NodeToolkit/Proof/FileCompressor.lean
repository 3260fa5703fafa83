import Mathlib.Data.List.Induction
import NodeToolkit.Spec.FileCompressor

/-!
# Whether compression is a pipeline

`FileCompressorComposite.compress` asks each compressor about the file that it has so far, and gives those
that support it the original file.

* `pipeline`: each compressor that supports the file so far makes the next one of it.
* `supports_iff`: a file is supported if and only if a compressor is applied to it.
* `pipeline_iff`: a list and its beginnings are pipelines for a file if and only if no compressor in its turn
  tells the file so far from the original one.
-/

namespace NodeToolkit.Media.FileCompressorComposite

variable {compressors : List FileCompressor} {file : LocalFile}

/-- **The abstract pipeline.** -/
def pipeline (compressors : List FileCompressor) (file : LocalFile) : Except String LocalFile :=
  compressors.foldlM (fun compressed compressor =>
    if compressor.supports compressed then compressor.compress compressed else .ok compressed) file

/-- The loop comes to a compressor with a file that it supports. -/
def Applied (compressors : List FileCompressor) (file : LocalFile) : Prop :=
  ∃ before compressor after compressed, compressors = before ++ compressor :: after ∧
    compress before file = .ok compressed ∧ compressor.supports compressed = true

/-- **No compressor tells them apart**: what the pipeline gives to a compressor that supports it is
compressed to the same as the original file. -/
def Independent (compressors : List FileCompressor) (file : LocalFile) : Prop :=
  ∀ before compressor after compressed, compressors = before ++ compressor :: after →
    pipeline before file = .ok compressed → compressor.supports compressed = true →
      compressor.compress compressed = compressor.compress file

/-! ## One compressor more -/

section Snoc

variable (compressors : List FileCompressor) (compressor : FileCompressor) (file : LocalFile)

theorem compress_snoc : compress (compressors ++ [compressor]) file =
    (compress compressors file).bind fun compressed => round file compressed compressor := by
  unfold compress
  rw [List.foldlM_append]
  simp only [List.foldlM_cons, List.foldlM_nil, bind_pure]
  rfl

theorem pipeline_snoc : pipeline (compressors ++ [compressor]) file =
    (pipeline compressors file).bind fun compressed =>
      if compressor.supports compressed then compressor.compress compressed else .ok compressed := by
  unfold pipeline
  rw [List.foldlM_append]
  simp only [List.foldlM_cons, List.foldlM_nil, bind_pure]
  rfl

end Snoc

/-! ## Whether a compressor is applied -/

/-- As long as none supports the file, it stays as it is. -/
theorem compress_unsupported (h : supports compressors file = false) : compress compressors file = .ok file := by
  induction compressors using List.reverseRecOn with
  | nil => rfl
  | append_singleton compressors compressor ih =>
    simp only [supports, List.any_append, Bool.or_eq_false_iff, List.any_cons, List.any_nil, Bool.or_false] at h
    rw [compress_snoc, ih h.1]
    show round file file compressor = _
    rw [round, if_neg (by simp [h.2])]

/-- **A file is supported if and only if a compressor is applied to it.** -/
theorem supports_iff : supports compressors file = true ↔ Applied compressors file := by
  constructor
  · intro h
    induction compressors using List.reverseRecOn with
    | nil => cases h
    | append_singleton compressors compressor ih =>
      by_cases hbefore : supports compressors file = true
      · obtain ⟨before, c, after, compressed, rfl, hcompress, hc⟩ := ih hbefore
        exact ⟨before, c, after ++ [compressor], compressed, by simp, hcompress, hc⟩
      · -- the last one is the first that supports it
        have hno := Bool.eq_false_iff.2 hbefore
        have hlast : compressor.supports file = true := by
          unfold supports at h hno
          rw [List.any_append, hno] at h
          simpa using h
        exact ⟨compressors, compressor, [], file, rfl, compress_unsupported hno, hlast⟩
  · rintro ⟨before, compressor, after, compressed, rfl, hcompress, hc⟩
    unfold supports
    rw [List.any_append, Bool.or_eq_true]
    by_cases hbefore : supports before file = true
    · exact .inl hbefore
    · rw [compress_unsupported (Bool.eq_false_iff.2 hbefore), Except.ok.injEq] at hcompress
      subst hcompress
      exact .inr (by simp [hc])

/-! ## Pipelines -/

theorem Independent.of_append {compressors' : List FileCompressor}
    (h : Independent (compressors ++ compressors') file) : Independent compressors file := by
  rintro before compressor after compressed rfl
  exact h before compressor (after ++ compressors') compressed (by simp)

theorem compress_eq_pipeline (h : Independent compressors file) :
    compress compressors file = pipeline compressors file := by
  induction compressors using List.reverseRecOn with
  | nil => rfl
  | append_singleton compressors compressor ih =>
    rw [compress_snoc, pipeline_snoc, ih h.of_append]
    cases hpipe : pipeline compressors file with
    | error e => rfl
    | ok compressed =>
      show round file compressed compressor = if _ then _ else _
      unfold round
      split
      · rename_i hc
        exact (h compressors compressor [] compressed rfl hpipe hc).symm
      · rfl

/-- **When compression is a pipeline**, for a list of compressors and its beginnings. Supporting a file
means what it should for every list. -/
theorem pipeline_iff (compressors : List FileCompressor) (file : LocalFile) :
    (∀ n, (FileCompressorComposite (compressors.take n)).compress file = pipeline (compressors.take n) file ∧
      ((FileCompressorComposite (compressors.take n)).supports file = true ↔ Applied (compressors.take n) file)) ↔
      Independent compressors file := by
  constructor
  · rintro h before compressor after compressed rfl hpipe hc
    have hbefore := (h before.length).1
    have hnext := (h (before.length + 1)).1
    rw [List.take_left] at hbefore
    have htake : (before ++ compressor :: after).take (before.length + 1) = before ++ [compressor] := by
      simp [List.take_append]
    rw [htake] at hnext
    have hcompress : compress before file = pipeline before file := hbefore
    have hround : compress (before ++ [compressor]) file = pipeline (before ++ [compressor]) file := hnext
    rw [compress_snoc, pipeline_snoc, hcompress, hpipe] at hround
    have hstep : round file compressed compressor = if compressor.supports compressed then
        compressor.compress compressed else .ok compressed := hround
    rw [round, if_pos hc, if_pos hc] at hstep
    exact hstep.symm
  · intro h n
    refine ⟨compress_eq_pipeline ?_, supports_iff⟩
    rw [← List.take_append_drop n compressors] at h
    exact h.of_append

/-- A compressor that halves the size, and one that takes a byte off it. -/
def halve : FileCompressor := ⟨fun _ => true, fun file => .ok { file with size := file.size / 2 }⟩

def shorten : FileCompressor := ⟨fun _ => true, fun file => .ok { file with size := file.size - 1 }⟩

/-- **The first compression is lost**: of 100 bytes, the second compressor makes 99 instead of 49. -/
theorem first_lost :
    (FileCompressorComposite [halve, shorten]).compress ⟨"a.png", "image/png", 100, "/tmp/a"⟩ ≠
      pipeline [halve, shorten] ⟨"a.png", "image/png", 100, "/tmp/a"⟩ := by
  have hcompress : (FileCompressorComposite [halve, shorten]).compress ⟨"a.png", "image/png", 100, "/tmp/a"⟩ =
      .ok ⟨"a.png", "image/png", 99, "/tmp/a"⟩ := rfl
  have hpipeline : pipeline [halve, shorten] ⟨"a.png", "image/png", 100, "/tmp/a"⟩ =
      .ok ⟨"a.png", "image/png", 49, "/tmp/a"⟩ := rfl
  rw [hcompress, hpipeline]
  simp

end NodeToolkit.Media.FileCompressorComposite
