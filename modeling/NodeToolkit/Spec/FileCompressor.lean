import NodeToolkit.Spec.MediaManager

/-!
# File compressors

`FileCompressorComposite`: several compressors as one. A compressor returns a file, or throws.
-/

namespace NodeToolkit.Media

structure FileCompressor where
  supports : LocalFile → Bool
  compress : LocalFile → Except String LocalFile

namespace FileCompressorComposite

/-- A round of the loop of `compress(file)`. -/
def round (file compressed : LocalFile) (compressor : FileCompressor) : Except String LocalFile :=
  if compressor.supports compressed then compressor.compress file else .ok compressed

def compress (compressors : List FileCompressor) (file : LocalFile) : Except String LocalFile :=
  compressors.foldlM (round file) file

def supports (compressors : List FileCompressor) (file : LocalFile) : Bool :=
  compressors.any fun compressor => compressor.supports file

end FileCompressorComposite

/-- `new FileCompressorComposite(compressors)`. -/
def FileCompressorComposite (compressors : List FileCompressor) : FileCompressor where
  supports := FileCompressorComposite.supports compressors
  compress := FileCompressorComposite.compress compressors

end NodeToolkit.Media
