import Raas.Os.Path

namespace Raas

/-- One entry of a directory scan. The scanner reports no content for a directory,
masks the mode to the permission bits, and counts the time in a `u64`. -/
structure ScannedEntry where
  relativePath : Bytes
  sourcePath : Path
  size : Nat
  isDir : Bool
  mode : Nat
  mtime : Nat
  dirSize : isDir = true → size = 0
  modeMasked : mode < 4096
  mtimeFits : mtime < u64Size

end Raas
