import ElispBridge.Evaluation.Files
import ElispBridge.Evaluation.Path
/-!
Files under names that nobody chose. How such a file is made and where it lies is up to the host, and
making one can fail.
-/

namespace ElispBridge

structure TemporaryFiles where
  /-- Makes a file whose name starts and ends as given: its path, or what went wrong, and the files
  afterwards. -/
  create : (start ending : String) → Files → Except FileError Path × Files
  remove : Path → Files → Files

end ElispBridge
